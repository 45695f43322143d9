import OpcUaTestTool.FileSystem
import OpcUaTestTool.IndexedStack
import OpcUaTestTool.Raising

/-! The stand-alone interpreter behind the REPL, function by function over the stack of the Lua
state. What the Lua core does with a chunk, a global name or a call is the `Interpreter`; a step
that its API does not allow, and a failing `lua_assert`, has no result. An error outside of a
protected call is raised out of the console. -/
namespace OpcUaTestTool.LuaConsole
open Numerals FileSystem Raising

/- Numbers are kept as the text they are converted to. -/
inductive Value (ω : Type) where
  | nil
  | boolean (b : Bool)
  | number (shown : Bytes)
  | string (s : Bytes)
  | msghandler
  | object (o : ω)

inductive Status where
  | ok
  | yield
  | errRun
  | errSyntax
  | errMem
  | errGcmm
  | errErr
  | errFile
  deriving DecidableEq

inductive Write where
  | stdout (s : Bytes)
  | stderr (s : Bytes)
  deriving DecidableEq

/- The Lua state without its stack, what can still be read from stdin, and what was written. -/
structure World (σ : Type) where
  lua : σ
  input : Bytes
  written : List Write := []

variable {ω σ : Type}

/-- `lua_tostring` -/
def Value.tostring : Value ω → Option Bytes
  | .number shown => some shown
  | .string s => some s
  | _ => none

/- `lua_tostring` turns a number into a string where it lies. -/
def Value.converted : Value ω → Value ω
  | .number shown => .string shown
  | v => v

abbrev Handler (ω σ : Type) := σ → Value ω → Value ω

/-- What the console uses of Lua. The names of globals are looked up and set with the metamethods of
their table, which may do anything a call may do. A call may read from stdin, but it puts nothing
back; an error object comes from the message handler, or Lua made it itself. -/
structure Interpreter (ω σ : Type) where
  load : σ → Bytes → Bytes → Status × Value ω
  getglobal : Bytes → World σ → Option (World σ × Except (Status × Value ω) (Value ω))
  setglobal : Bytes → Value ω → World σ → Option (World σ × Except (Status × Value ω) Unit)
  /-- `lua_checkstack`: above so many values there is room for so many more. -/
  checkstack : σ → Nat → Nat → Bool
  pcall : Option (Handler ω σ) → Value ω → List (Value ω) → World σ →
    Option (World σ × Except (Status × Value ω) (List (Value ω)))
  callmeta : σ → Value ω → Option (Value ω)
  typename : Value ω → Bytes
  traceback : σ → Bytes → Bytes
  load_message : ∀ s chunk name status v, load s chunk name = (status, v) → status ≠ .ok →
    ∃ msg, v = .string msg
  looks_up : ∀ name w w' r, getglobal name w = some (w', r) → w'.input.length ≤ w.input.length
  consumes : ∀ handler f args w w' r, pcall handler f args w = some (w', r) →
    w'.input.length ≤ w.input.length
  failed : ∀ handler f args w w' status v, pcall handler f args w = some (w', .error (status, v)) →
    status ≠ .ok
  handled : ∀ handler f args w w' status v,
    pcall (some handler) f args w = some (w', .error (status, v)) →
    (∃ s e, v = handler s e) ∨ ∃ msg, v = .string msg

/- An error that no call of the console has caught, and what it left behind. -/
structure Raised (ω σ : Type) where
  status : Status
  value : Value ω
  world : World σ

abbrev LuaM (ω σ α : Type) := ExceptT (Raised ω σ) Option α

/-- Outside of a protected call an error is raised. -/
def unprotected {α : Type} (r : Option (World σ × Except (Status × Value ω) α)) :
    LuaM ω σ (World σ × α) := do
  let (world, r) ← r
  match r with
  | .ok a => pure (world, a)
  | .error (status, value) => throw ⟨status, value, world⟩

structure State (ω σ : Type) where
  stack : List (Value ω)
  world : World σ
  progname : Option Bytes

def World.write (w : World σ) (ws : List Write) : World σ := { w with written := w.written ++ ws }

def State.write (L : State ω σ) (ws : List Write) : State ω σ :=
  { L with world := L.world.write ws }

def State.push (L : State ω σ) (v : Value ω) : State ω σ := { L with stack := L.stack ++ [v] }

def State.pop (L : State ω σ) (n : Nat) : Option (State ω σ) :=
  (IndexedStack.pop L.stack n).map fun stack => { L with stack := stack }

def State.insert (L : State ω σ) (i : Int) : Option (State ω σ) :=
  (IndexedStack.insert L.stack i).map fun stack => { L with stack := stack }

def State.remove (L : State ω σ) (i : Int) : Option (State ω σ) :=
  (IndexedStack.remove L.stack i).map fun stack => { L with stack := stack }

/-- `lua_concat`, where all the values are strings. -/
def State.concat (L : State ω σ) (n : Nat) : Option (State ω σ) :=
  (IndexedStack.popValues L.stack n).bind fun r =>
    (r.2.mapM Value.tostring).map fun strings =>
      { L with stack := r.1 ++ [.string strings.flatten] }

def State.value (L : State ω σ) (i : Int) : Option (Value ω) := IndexedStack.value L.stack i

def State.tostring (L : State ω σ) (i : Int) : Option Bytes :=
  (L.value i).bind Value.tostring

/- `none` is `LUA_MULTRET`. -/
def adjust (nres : Option Nat) (results : List (Value ω)) : List (Value ω) :=
  match nres with
  | none => results
  | some n => results.take n ++ List.replicate (n - results.length) .nil

variable (I : Interpreter ω σ)

def msghandler : Handler ω σ := fun s v =>
  match v.tostring with
  | some msg => .string (I.traceback s msg)
  | none =>
    match I.callmeta s v with
    | some (.string msg) => .string msg
    | _ => .string (I.traceback s
        (text "(error object is a " ++ I.typename v ++ text " value)"))

/-- `lua_pcall` -/
def pcall (narg : Nat) (nres : Option Nat) (msgh : Int) (L : State ω σ) :
    Option (Status × State ω σ) := do
  let (stack, called) ← IndexedStack.popValues L.stack (narg + 1)
  let handler ← if msgh = 0 then some none else
    match IndexedStack.value stack msgh with
    | some .msghandler => some (some (msghandler I))
    | _ => none
  match called with
  | [] => none
  | f :: args =>
    match ← I.pcall handler f args L.world with
    | (world, .ok results) =>
      some (.ok, { L with stack := stack ++ adjust nres results, world := world })
    | (world, .error (status, v)) =>
      some (status, { L with stack := stack ++ [v], world := world })

/-- `l_message`; `none` as the message is a null pointer. -/
def l_message (pname : Option Bytes) (msg : Option Bytes) (L : State ω σ) : State ω σ :=
  let prefixed := match pname with
    | none => []
    | some pname => [Write.stderr (pname ++ text ": ")]
  L.write (prefixed ++ [.stderr ((msg.map cString).getD (text "(null)") ++ text "\n")])

def report (status : Status) (L : State ω σ) : Option (State ω σ) :=
  if status = .ok then some L else (l_message L.progname (L.tostring (-1)) L).pop 1

def docall (narg : Nat) (nres : Option Nat) (L : State ω σ) : Option (Status × State ω σ) := do
  let base : Int := L.stack.length - narg
  let L ← (L.push .msghandler).insert base
  let (status, L) ← pcall I narg nres base L
  let L ← L.remove base
  some (status, L)

def promptName (firstline : Bool) : Bytes := if firstline then text "_PROMPT" else text "_PROMPT2"

def LUA_PROMPT (firstline : Bool) : Bytes := if firstline then text "> " else text ">> "

def State.getglobal (name : Bytes) (L : State ω σ) : LuaM ω σ (State ω σ) := do
  let (world, v) ← unprotected (I.getglobal name L.world)
  pure (State.push { L with world := world } v)

def State.setglobal (name : Bytes) (L : State ω σ) : LuaM ω σ (State ω σ) := do
  let v ← L.value (-1)
  let (world, _) ← unprotected (I.setglobal name v L.world)
  let L ← L.pop 1
  pure { L with world := world }

def LUA_MINSTACK : Nat := 20

def luaL_checkstack (space : Nat) (msg : Bytes) (L : State ω σ) : LuaM ω σ Unit :=
  if I.checkstack L.world.lua L.stack.length space then pure ()
  else throw ⟨.errRun, .string (text "stack overflow (" ++ msg ++ text ")"), L.world⟩

/-- `get_prompt` leaves the value on the stack. -/
def get_prompt (firstline : Bool) (L : State ω σ) : LuaM ω σ (Bytes × State ω σ) := do
  let L ← L.getglobal I (promptName firstline)
  let v ← L.value (-1)
  let L ← L.pop 1
  pure (v.tostring.getD (LUA_PROMPT firstline), L.push v.converted)

def EOFMARK : Bytes := text "<eof>"

def incomplete (status : Status) (L : State ω σ) : Option (Bool × State ω σ) :=
  if status = .errSyntax then do
    let msg ← L.tostring (-1)
    if EOFMARK <:+ msg then
      let L ← L.pop 1
      some (true, L)
    else some (false, L)
  else some (false, L)

/-- Up to a number of bytes, and not beyond a line feed. -/
def takeLine : Nat → Bytes → Bytes × Bytes
  | 0, s => ([], s)
  | _ + 1, [] => ([], [])
  | n + 1, c :: s =>
    if c = 10 then ([10], s)
    else ((takeLine n s).1.cons c, (takeLine n s).2)

def LUA_MAXINPUT : Nat := 512

def fgets (size : Nat) (input : Bytes) : Option (Bytes × Bytes) :=
  if input = [] then none else some (takeLine (size - 1) input)

/-- The line in the buffer, as a C string without its line feed. -/
def chomp (b : Bytes) : Bytes :=
  if (cString b).getLast? = some 10 then (cString b).dropLast else cString b

def pushline (firstline : Bool) (L : State ω σ) : LuaM ω σ (Bool × State ω σ) := do
  let (prmt, L) ← get_prompt I firstline L
  let L := L.write [.stdout (cString prmt)]
  match fgets LUA_MAXINPUT L.world.input with
  | none => pure (false, L)
  | some (b, input) =>
    let L ← State.pop { L with world := { L.world with input := input } } 1
    let b := chomp b
    let line := if firstline ∧ b.head? = some 61 then text "return " ++ b.tail else b
    pure (true, L.push (.string line))

def addreturn (L : State ω σ) : Option (Status × State ω σ) := do
  let line ← L.tostring (-1)
  let retline := text "return " ++ cString line ++ text ";"
  let L := L.push (.string retline)
  let (status, v) := I.load L.world.lua (cString retline) (text "=stdin")
  let L := L.push v
  if status = .ok then
    let L ← L.remove (-2)
    some (status, L)
  else
    let L ← L.pop 2
    some (status, L)

/- The fuel is the number of rounds; each of them but the last one reads a line. -/
def multiline : Nat → State ω σ → LuaM ω σ (Status × State ω σ)
  | 0, _ => ExceptT.mk none
  | fuel + 1, L => do
    let line ← L.tostring 1
    let (status, v) := I.load L.world.lua line (text "=stdin")
    let (more, L) ← incomplete status (L.push v)
    if more then
      let (pushed, L) ← pushline I false L
      if pushed then
        let L ← (L.push (.string (text "\n"))).insert (-2)
        let L ← L.concat 3
        multiline fuel L
      else pure (status, L)
    else pure (status, L)

/-- `loadline`; `none` as the status is the -1 for no input. -/
def loadline (fuel : Nat) (L : State ω σ) : LuaM ω σ (Option Status × State ω σ) := do
  let (pushed, L) ← pushline I true { L with stack := [] }
  if pushed then
    let (status, L) ← addreturn I L
    let (status, L) ← if status = .ok then pure (status, L) else multiline I fuel L
    let L ← L.remove 1
    if L.stack.length = 1 then pure (some status, L) else ExceptT.mk none
  else pure (none, L)

def l_print (L : State ω σ) : LuaM ω σ (State ω σ) :=
  let n := L.stack.length
  if 0 < n then do
    luaL_checkstack I LUA_MINSTACK (text "too many results to print") L
    let L ← L.getglobal I (text "print")
    let L ← L.insert 1
    let (status, L) ← pcall I n (some 0) 0 L
    if status = .ok then pure L
    else
      let msg := text "error calling 'print' (" ++
        ((L.tostring (-1)).map cString).getD (text "(null)") ++ text ")"
      pure (l_message L.progname (some msg) (L.push (.string msg)))
  else pure L

/-- What `doREPL` does with the status of `loadline`. -/
def replBody (status : Status) (L : State ω σ) : LuaM ω σ (State ω σ) := do
  let (status, L) ← if status = .ok then docall I 0 none L else pure (status, L)
  if status = .ok then l_print I L else report status L

def replLoop : Nat → State ω σ → LuaM ω σ (State ω σ)
  | 0, _ => ExceptT.mk none
  | fuel + 1, L => do
    let (status, L) ← loadline I fuel L
    match status with
    | none => pure L
    | some status =>
      let L ← replBody I status L
      replLoop fuel L

/-- `doREPL` -/
def doREPL (fuel : Nat) (L : State ω σ) : LuaM ω σ (State ω σ) := do
  let oldprogname := L.progname
  let L ← replLoop I fuel { L with progname := none }
  pure { (State.write { L with stack := [] } [.stdout (text "\n")]) with progname := oldprogname }

end OpcUaTestTool.LuaConsole
