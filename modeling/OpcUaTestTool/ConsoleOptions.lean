import OpcUaTestTool.ConsoleRepl

/-! The options of the stand-alone interpreter. They are gone through twice: once before any Lua
code is run, to find the mask and the script, and once more to run the code they hold. -/
namespace OpcUaTestTool.ConsoleOptions
open Numerals FileSystem LuaConsole ConsoleRepl Raising
variable {ω σ : Type}

/-- `argv[i]`: a null pointer behind the last argument, and nothing to read beyond it. -/
def argument (argv : List Bytes) (i : Nat) : Option (Option Bytes) :=
  if i ≤ argv.length then some argv[i]? else none

/-- `s[k]`: the terminator behind the last character, and nothing to read beyond it. -/
def character (s : Bytes) (k : Nat) : Option UInt8 :=
  if k ≤ s.length then some (s[k]?.getD 0) else none

structure Mask where
  has_i : Bool := false
  has_v : Bool := false
  has_e : Bool := false
  has_E : Bool := false
  deriving DecidableEq

inductive Args where
  | has_error
  | mask (args : Mask)
  deriving DecidableEq

/- What the loop does with one argument. -/
inductive Collected where
  | return (args : Args) (first : Nat)
  | continue (args : Mask) (i : Nat)

/-- The options that need no argument: nothing may follow the letter. -/
def collectFlag (arg : Bytes) (args : Mask) (i : Nat) : Option Collected := do
  if (← character arg 2) ≠ 0 then some (.return .has_error i) else some (.continue args (i + 1))

/-- The options that need an argument: it may be in the next one. -/
def collectArgument (argv : List Bytes) (arg : Bytes) (args : Mask) (i : Nat) :
    Option Collected := do
  if (← character arg 2) = 0 then
    match ← argument argv (i + 1) with
    | none => some (.return .has_error i)
    | some next =>
      if (← character next 0) = 45 then some (.return .has_error i)
      else some (.continue args (i + 2))
  else some (.continue args (i + 1))

def collect (argv : List Bytes) (arg : Bytes) (args : Mask) (i : Nat) : Option Collected := do
  if (← character arg 0) ≠ 45 then some (.return (.mask args) i)
  else
    let c ← character arg 1
    if c = 45 then
      if (← character arg 2) ≠ 0 then some (.return .has_error i)
      else some (.return (.mask args) (i + 1))
    else if c = 0 then some (.return (.mask args) i)
    else if c = 69 then collectFlag arg { args with has_E := true } i
    else if c = 105 then collectFlag arg { args with has_i := true, has_v := true } i
    else if c = 118 then collectFlag arg { args with has_v := true } i
    else if c = 101 then collectArgument argv arg { args with has_e := true } i
    else if c = 108 then collectArgument argv arg args i
    else some (.return .has_error i)

def collectLoop (argv : List Bytes) : Nat → Nat → Mask → Option (Args × Nat)
  | 0, _, _ => none
  | fuel + 1, i, args => do
    match ← argument argv i with
    | none => some (.mask args, i)
    | some arg =>
      match ← collect argv arg args i with
      | .return args first => some (args, first)
      | .continue args i => collectLoop argv fuel i args

/-- `collectargs` -/
def collectargs (argv : List Bytes) : Option (Args × Nat) := collectLoop argv argv.length 1 {}

/-- `print_usage` -/
def usage (progname badoption : Bytes) : Option (List Write) := do
  let c ← character badoption 1
  some [.stderr (progname ++ text ": "),
    if c = 101 ∨ c = 108 then .stderr (text "'" ++ badoption ++ text "' needs argument\n")
    else .stderr (text "unrecognized option '" ++ badoption ++ text "'\n"),
    .stderr (text "usage: " ++ progname ++ text " [options] [script [args]]\n" ++
      text "Available options are:\n" ++
      text "  -e stat  execute string 'stat'\n" ++
      text "  -i       enter interactive mode after executing 'script'\n" ++
      text "  -l name  require library 'name' into global 'name'\n" ++
      text "  -v       show version information\n" ++
      text "  -E       ignore environment variables\n" ++
      text "  --       stop handling options\n" ++
      text "  -        stop handling options and execute stdin\n")]

/-! ### Running the code of the options -/

variable (I : Interpreter ω σ)

def dochunk (status : Status) (L : State ω σ) : Option (Status × State ω σ) := do
  let (status, L) ← if status = .ok then docall I 0 (some 0) L else some (status, L)
  let L ← report status L
  some (status, L)

def dostring (s name : Bytes) (L : State ω σ) : Option (Status × State ω σ) :=
  let (status, v) := I.load L.world.lua (cString s) name
  dochunk I status (L.push v)

/-- `dolibrary` -/
def dolibrary (name : Bytes) (L : State ω σ) : LuaM ω σ (Status × State ω σ) := do
  let L ← L.getglobal I (text "require")
  let (status, L) ← docall I 1 (some 1) (L.push (.string (cString name)))
  let L ← if status = .ok then L.setglobal I (cString name) else pure L
  let L ← report status L
  pure (status, L)

/-- The argument of an option is behind its letter, or it is the next one. -/
def extraArgument (argv : List Bytes) (arg : Bytes) (i : Nat) : Option (Option Bytes × Nat) := do
  if (← character arg 2) = 0 then (argument argv (i + 1)).map fun next => (next, i + 1)
  else some (some (arg.drop 2), i)

def runargsLoop (argv : List Bytes) (n : Nat) : Nat → Nat → State ω σ → LuaM ω σ (Bool × State ω σ)
  | 0, _, _ => ExceptT.mk none
  | fuel + 1, i, L =>
    if i < n then do
      match ← argument argv i with
      | none => ExceptT.mk none
      | some arg =>
        let option ← character arg 1
        if (← character arg 0) ≠ 45 then ExceptT.mk none
        else if option = 101 ∨ option = 108 then
          let (extra, i) ← extraArgument argv arg i
          match extra with
          | none => ExceptT.mk none
          | some extra =>
            let (status, L) ← if option = 101 then dostring I extra (text "=(command line)") L
              else dolibrary I extra L
            if status ≠ .ok then pure (false, L) else runargsLoop argv n fuel (i + 1) L
        else runargsLoop argv n fuel (i + 1) L
    else pure (true, L)

/-- `runargs` -/
def runargs (argv : List Bytes) (n : Nat) (L : State ω σ) : LuaM ω σ (Bool × State ω σ) :=
  runargsLoop I argv n (n + 1) 1 L

/-! ### The options in one go -/

inductive Opt where
  | E
  | i
  | v
  | e (stat : Bytes)
  | l (name : Bytes)
  deriving DecidableEq

/- The code of one option, as `runargs` runs it. -/
def exec (o : Opt) (L : State ω σ) : LuaM ω σ (Status × State ω σ) :=
  match o with
  | .e stat => dostring I stat (text "=(command line)") L
  | .l name => dolibrary I name L
  | _ => pure (.ok, L)

/- What an argument is by itself; `wants` is an option whose argument comes next. -/
inductive Kind where
  | script
  | dashes
  | option (o : Opt)
  | wants (o : Bytes → Opt)
  | bad

def given (o : Bytes → Opt) (extra : Bytes) : Kind :=
  if extra = [] then .wants o else .option (o extra)

def plain (o : Opt) (extra : Bytes) : Kind := if extra = [] then .option o else .bad

def kind : Bytes → Kind
  | 45 :: c :: extra =>
    if c = 45 then if extra = [] then .dashes else .bad
    else if c = 69 then plain .E extra
    else if c = 105 then plain .i extra
    else if c = 118 then plain .v extra
    else if c = 101 then given .e extra
    else if c = 108 then given .l extra
    else .bad
  | _ => .script

/-- The options of a command line and what is behind them, or the arguments from a wrong one on. -/
def parseOptions : List Bytes → Except (List Bytes) (List Opt × List Bytes)
  | [] => .ok ([], [])
  | arg :: args =>
    match kind arg with
    | .script => .ok ([], arg :: args)
    | .dashes => .ok ([], args)
    | .bad => .error (arg :: args)
    | .option o => (parseOptions args).map fun r => (o :: r.1, r.2)
    | .wants o =>
      match args with
      | [] => .error [arg]
      | next :: args =>
        if next.head? = some 45 then .error (arg :: next :: args)
        else (parseOptions args).map fun r => (o next :: r.1, r.2)

def Mask.add (args : Mask) : Opt → Mask
  | .E => { args with has_E := true }
  | .i => { args with has_i := true, has_v := true }
  | .v => { args with has_v := true }
  | .e _ => { args with has_e := true }
  | .l _ => args

example : parseOptions [text "-i", text "-e", text "x=1", text "-lm", text "--", text "a.lua"] =
    .ok ([.i, .e (text "x=1"), .l (text "m")], [text "a.lua"]) := by decide

/- A mask, and the number of the first argument that is not handled. -/
def collected (n : Nat) (args : Mask) : Except (List Bytes) (List Opt × List Bytes) → Args × Nat
  | .ok (opts, rest) => (.mask (opts.foldl Mask.add args), n - rest.length)
  | .error bad => (.has_error, n - bad.length)

/-- The arguments are C strings. -/
def CStrings (argv : List Bytes) : Prop := ∀ arg ∈ argv, 0 ∉ arg

theorem argument_append (pre args : List Bytes) (k : Nat) (hk : k ≤ args.length) :
    argument (pre ++ args) (pre.length + k) = some args[k]? := by
  rw [argument, if_pos (by rw [List.length_append]; omega), List.getElem?_append_right (by omega),
    Nat.add_sub_cancel_left]

theorem character_zero (s : Bytes) :
    ∃ d, character s 0 = some d ∧ (d = 45 ↔ s.head? = some 45) := by
  cases s with
  | nil => exact ⟨0, rfl, by decide⟩
  | cons d s => exact ⟨d, rfl, by simp⟩

theorem character_two {extra : Bytes} (h : 0 ∉ extra) (b c : UInt8) :
    ∃ d, character (b :: c :: extra) 2 = some d ∧ (d = 0 ↔ extra = []) := by
  cases extra with
  | nil => exact ⟨0, rfl, by simp⟩
  | cons d extra =>
    refine ⟨d, by simp [character], ?_⟩
    have hd : d ≠ 0 := fun hd => h (hd ▸ List.mem_cons_self)
    simp [hd]

/-- How the loop goes on after an argument of a kind, of which the next ones are known. -/
def proceed (args : List Bytes) (mask : Mask) (i : Nat) : Kind → Collected
  | .script => .return (.mask mask) i
  | .dashes => .return (.mask mask) (i + 1)
  | .bad => .return .has_error i
  | .option o => .continue (mask.add o) (i + 1)
  | .wants o =>
    match args with
    | [] => .return .has_error i
    | next :: _ =>
      if next.head? = some 45 then .return .has_error i else .continue (mask.add (o next)) (i + 2)

theorem collectFlag_eq {extra : Bytes} (h : 0 ∉ extra) (b c : UInt8) (args : List Bytes)
    (mask : Mask) (i : Nat) (o : Opt) :
    collectFlag (b :: c :: extra) (mask.add o) i = some (proceed args mask i (plain o extra)) := by
  obtain ⟨d, hd, hnil⟩ := character_two h b c
  simp only [collectFlag, hd, bind, Option.bind_some, plain]
  by_cases he : extra = []
  · simp [hnil, he, proceed]
  · simp [hnil, he, proceed]

theorem collectArgument_eq {pre args : List Bytes} {arg extra : Bytes} (h : 0 ∉ extra) (b c : UInt8)
    (mask : Mask) {mask' : Mask} {o : Bytes → Opt} (ho : ∀ s, mask' = mask.add (o s)) :
    collectArgument (pre ++ arg :: args) (b :: c :: extra) mask' pre.length =
      some (proceed args mask pre.length (given o extra)) := by
  obtain ⟨d, hd, hnil⟩ := character_two h b c
  have hnext := argument_append pre (arg :: args) 1 (by simp)
  simp only [collectArgument, hd, hnext, bind, Option.bind_some, given]
  by_cases he : extra = []
  · cases args with
    | nil => simp [hnil, he, proceed]
    | cons next args =>
      obtain ⟨d', hd', hdash⟩ := character_zero next
      by_cases hnext45 : next.head? = some 45
      · simp [hnil, he, hd', hdash, hnext45, proceed]
      · simp [hnil, he, hd', hdash, hnext45, proceed, ← ho]
  · simp [hnil, he, proceed, ← ho]

/-- What the loop does with one argument is a matter of its kind, and of the next argument. -/
theorem collect_eq {pre args : List Bytes} {arg : Bytes} (harg : 0 ∉ arg) (mask : Mask) :
    collect (pre ++ arg :: args) arg mask pre.length =
      some (proceed args mask pre.length (kind arg)) := by
  cases arg with
  | nil => rfl
  | cons b s =>
    by_cases hb : b = 45
    · subst hb
      cases s with
      | nil => rfl
      | cons c extra =>
        simp only [List.mem_cons, not_or] at harg
        have hc0 : c ≠ 0 := Ne.symm harg.2.1
        have hextra := harg.2.2
        obtain ⟨d, hd, hnil⟩ := character_two hextra 45 c
        have hzero : character (45 :: c :: extra) 0 = some 45 := rfl
        have hone : character (45 :: c :: extra) 1 = some c := rfl
        simp only [collect, hzero, hone, hd, bind, Option.bind_some, ne_eq, not_true_eq_false,
          if_false, if_neg hc0, kind]
        by_cases h45 : c = 45
        · by_cases he : extra = []
          · simp [h45, hnil, he, proceed]
          · simp [h45, hnil, he, proceed]
        · rw [if_neg h45, if_neg h45]
          by_cases hE : c = 69
          · rw [if_pos hE, if_pos hE]
            exact collectFlag_eq hextra 45 c args mask pre.length .E
          · rw [if_neg hE, if_neg hE]
            by_cases hi : c = 105
            · rw [if_pos hi, if_pos hi]
              exact collectFlag_eq hextra 45 c args mask pre.length .i
            · rw [if_neg hi, if_neg hi]
              by_cases hv : c = 118
              · rw [if_pos hv, if_pos hv]
                exact collectFlag_eq hextra 45 c args mask pre.length .v
              · rw [if_neg hv, if_neg hv]
                by_cases he : c = 101
                · rw [if_pos he, if_pos he]
                  exact collectArgument_eq hextra 45 c mask fun _ => rfl
                · rw [if_neg he, if_neg he]
                  by_cases hl : c = 108
                  · rw [if_pos hl, if_pos hl]
                    exact collectArgument_eq hextra 45 c mask fun _ => rfl
                  · rw [if_neg hl, if_neg hl]
                    rfl
    · have hzero : character (b :: s) 0 = some b := rfl
      have hkind : kind (b :: s) = .script := by
        unfold kind
        split
        · rename_i heq
          exact absurd (List.cons.inj heq).1 hb
        · rfl
      simp [collect, hzero, hb, hkind, proceed]

theorem collected_map (n : Nat) (mask : Mask) (o : Opt)
    (r : Except (List Bytes) (List Opt × List Bytes)) :
    collected n mask (r.map fun r => (o :: r.1, r.2)) = collected n (mask.add o) r := by
  cases r with
  | error bad => rfl
  | ok r => rfl

theorem collectLoop_eq {fuel : Nat} {pre args : List Bytes} (hargs : CStrings args)
    (hfuel : args.length < fuel) (mask : Mask) :
    collectLoop (pre ++ args) fuel pre.length mask =
      some (collected (pre ++ args).length mask (parseOptions args)) := by
  induction fuel generalizing pre args mask with
  | zero => omega
  | succ fuel ih =>
    have hat := argument_append pre args 0 (Nat.zero_le _)
    rw [Nat.add_zero] at hat
    cases args with
    | nil =>
      rw [List.append_nil] at hat ⊢
      simp [collectLoop, hat, parseOptions, collected]
    | cons arg args =>
      have hlen : args.length < fuel := by simpa using hfuel
      have harg := hargs arg List.mem_cons_self
      have hrest : CStrings args := fun a ha => hargs a (List.mem_cons_of_mem arg ha)
      simp only [collectLoop, hat, List.getElem?_cons_zero, bind, Option.bind_some,
        collect_eq harg]
      cases hk : kind arg with
      | script => simp [proceed, parseOptions, hk, collected]
      | dashes =>
        simp only [proceed, parseOptions, hk, collected, List.foldl_nil, List.length_append,
          List.length_cons]
        congr 2
        omega
      | bad => simp [proceed, parseOptions, hk, collected]
      | option o =>
        have ih := @ih (pre ++ [arg]) args hrest hlen (mask.add o)
        rw [List.append_assoc, List.singleton_append, List.length_append, List.length_singleton]
          at ih
        simp only [proceed, parseOptions, hk, collected_map, ih]
      | wants o =>
        cases args with
        | nil => simp [proceed, parseOptions, hk, collected]
        | cons next args =>
          by_cases hnext : next.head? = some 45
          · simp [proceed, parseOptions, hk, hnext, collected]
          · have hlen' : args.length < fuel := by
              rw [List.length_cons] at hlen
              omega
            have ih := @ih (pre ++ [arg, next]) args
              (fun a ha => hrest a (List.mem_cons_of_mem next ha)) hlen' (mask.add (o next))
            rw [List.append_assoc, List.length_append] at ih
            simp only [List.cons_append, List.nil_append, List.length_cons, List.length_nil] at ih
            simp only [proceed, parseOptions, hk, if_neg hnext, collected_map]
            exact ih

/-! ### What the code of the options does -/

variable (I : Interpreter ω σ) (p : Option Bytes)

/-- The message of an error, with the name of the program if there is one. -/
def errorText (v : Value ω) : List Write :=
  (p.map fun pname => Write.stderr (pname ++ text ": ")).toList ++ [reported v]

def runChunk (r : Status × Value ω) (w : World σ) : Option (Status × World σ) :=
  if r.1 = .ok then
    (I.pcall (some (msghandler I)) r.2 [] w).map fun c =>
      match c.2 with
      | .ok _ => (.ok, c.1)
      | .error (status, v) => (status, c.1.write (errorText p v))
  else some (r.1, w.write (errorText p r.2))

/-- `global[name] = require(name)` -/
def require (name : Bytes) (w : World σ) : LuaM ω σ (Status × World σ) := do
  let (w, f) ← unprotected (I.getglobal (text "require") w)
  let (w, c) ← I.pcall (some (msghandler I)) f [.string name] w
  match c with
  | .ok results =>
    let (w, _) ← unprotected (I.setglobal name (results.head?.getD .nil) w)
    pure (.ok, w)
  | .error (status, v) => pure (status, w.write (errorText p v))

def runOption (w : World σ) : Opt → LuaM ω σ (Status × World σ)
  | .e stat => runChunk I p (I.load w.lua stat (text "=(command line)")) w
  | .l name => require I p name w
  | _ => pure (.ok, w)

/-- One option after the other, up to the first whose code fails. -/
def runOptions : List Opt → World σ → LuaM ω σ (Bool × World σ)
  | [], w => pure (true, w)
  | o :: opts, w => do
    let r ← runOption I p w o
    if r.1 = .ok then runOptions opts r.2 else pure (false, r.2)

variable {I p}

theorem report_push {status : Status} (hstatus : status ≠ .ok) (s : List (Value ω)) (v : Value ω)
    (w : World σ) : report status ⟨s ++ [v], w, p⟩ = some ⟨s, w.write (errorText p v), p⟩ := by
  have htop : (⟨s ++ [v], w, p⟩ : State ω σ).tostring (-1) = v.tostring :=
    tostring_push ⟨s, w, p⟩ v
  have hpop := IndexedStack.pop_append s [v]
  simp only [List.length_singleton] at hpop
  cases p with
  | none =>
    simp [report, hstatus, htop, l_message, State.write, State.pop, hpop, errorText, reported]
  | some pname =>
    simp [report, hstatus, htop, l_message, State.write, State.pop, hpop, errorText, reported]

/-- A chunk leaves the stack as it was before it was loaded. -/
theorem dochunk_eq (status : Status) (s : List (Value ω)) (v : Value ω) (w : World σ) :
    dochunk I status ⟨s ++ [v], w, p⟩ =
      (runChunk I p (status, v) w).map fun r => (r.1, ⟨s, r.2, p⟩) := by
  unfold dochunk runChunk
  by_cases hok : status = .ok
  · have hcall := docall_eq (I := I) (some 0) s v [] w p
    simp only [List.length_nil] at hcall
    simp only [if_pos hok, hcall, bind]
    cases hc : I.pcall (some (msghandler I)) v [] w with
    | none => rfl
    | some c =>
      obtain ⟨w', c⟩ := c
      cases c with
      | ok results => simp [returned, adjust, report]
      | error e =>
        obtain ⟨status', v'⟩ := e
        have hstatus : status' ≠ .ok := I.failed _ _ _ _ _ _ _ hc
        simp [returned, report_push hstatus]
  · simp [hok, report_push hok, bind]

theorem dostring_eq {stat : Bytes} (h : 0 ∉ stat) (name : Bytes) (s : List (Value ω))
    (w : World σ) :
    dostring I stat name ⟨s, w, p⟩ =
      (runChunk I p (I.load w.lua stat name) w).map fun r => (r.1, ⟨s, r.2, p⟩) := by
  rw [dostring, cString_eq_self h]
  exact dochunk_eq _ s _ w

theorem dolibrary_eq {name : Bytes} (h : 0 ∉ name) (s : List (Value ω)) (w : World σ) :
    dolibrary I name ⟨s, w, p⟩ =
      (fun r => (r.1, ⟨s, r.2, p⟩)) <$> require I p name w := by
  simp only [dolibrary, require, State.getglobal, cString_eq_self h, map_eq_pure_bind, bind_assoc,
    pure_bind]
  refine bind_congr fun g => ?_
  have hpush : (State.push (State.push ⟨s, g.1, p⟩ g.2) (.string name) : State ω σ) =
      ⟨s ++ g.2 :: [.string name], g.1, p⟩ := by simp [State.push]
  have hcall := docall_eq (I := I) (some 1) s g.2 [.string name] g.1 p
  rw [List.length_singleton] at hcall
  rw [hpush, hcall]
  cases hc : I.pcall (some (msghandler I)) g.2 [.string name] g.1 with
  | none => rfl
  | some c =>
    obtain ⟨w', c⟩ := c
    cases c with
    | ok results =>
      have hadjust : adjust (some 1) results = [results.head?.getD .nil] := by
        cases results with
        | nil => rfl
        | cons v vs => simp [adjust]
      have htop := IndexedStack.value_append (a := s) (b := []) (v := results.head?.getD .nil)
        (i := -1) (Or.inr rfl)
      have hpop := IndexedStack.pop_append s [results.head?.getD .nil]
      simp only [List.length_singleton] at hpop
      simp [returned, hadjust, State.setglobal, State.value, htop, State.pop, hpop, report]
    | error e =>
      obtain ⟨status', v'⟩ := e
      have hstatus : status' ≠ .ok := I.failed _ _ _ _ _ _ _ hc
      simp [returned, hstatus, report_push hstatus]

/-! ### The second pass -/

/-- Options without an argument, and `-e` and `-l` with theirs behind the letter. -/
inductive Spelled : Bytes → Opt → Prop
  | E : Spelled [45, 69] .E
  | i : Spelled [45, 105] .i
  | v : Spelled [45, 118] .v
  | e (b : UInt8) (s : Bytes) : Spelled (45 :: 101 :: b :: s) (.e (b :: s))
  | l (b : UInt8) (s : Bytes) : Spelled (45 :: 108 :: b :: s) (.l (b :: s))

/-- All that an argument can be. -/
theorem kind_cases (arg : Bytes) :
    kind arg = .script ∨ kind arg = .bad ∨ (arg = [45, 45] ∧ kind arg = .dashes) ∨
      (arg = [45, 101] ∧ kind arg = .wants .e) ∨ (arg = [45, 108] ∧ kind arg = .wants .l) ∨
      ∃ o, Spelled arg o ∧ kind arg = .option o := by
  cases arg with
  | nil => exact Or.inl rfl
  | cons b s =>
    by_cases hb : b = 45
    · subst hb
      cases s with
      | nil => exact Or.inl rfl
      | cons c extra =>
        refine Or.inr ?_
        by_cases hbad : kind (45 :: c :: extra) = .bad
        · exact Or.inl hbad
        refine Or.inr ?_
        by_cases hc : c = 45 ∨ c = 69 ∨ c = 105 ∨ c = 118 ∨ c = 101 ∨ c = 108
        · cases extra with
          | nil =>
            rcases hc with rfl | rfl | rfl | rfl | rfl | rfl
            · exact Or.inl ⟨rfl, rfl⟩
            · exact Or.inr (Or.inr (Or.inr ⟨_, .E, rfl⟩))
            · exact Or.inr (Or.inr (Or.inr ⟨_, .i, rfl⟩))
            · exact Or.inr (Or.inr (Or.inr ⟨_, .v, rfl⟩))
            · exact Or.inr (Or.inl ⟨rfl, rfl⟩)
            · exact Or.inr (Or.inr (Or.inl ⟨rfl, rfl⟩))
          | cons d s =>
            rcases hc with rfl | rfl | rfl | rfl | rfl | rfl
            · exact absurd rfl hbad
            · exact absurd rfl hbad
            · exact absurd rfl hbad
            · exact absurd rfl hbad
            · exact Or.inr (Or.inr (Or.inr ⟨_, .e d s, rfl⟩))
            · exact Or.inr (Or.inr (Or.inr ⟨_, .l d s, rfl⟩))
        · simp only [not_or] at hc
          exact absurd (by simp [kind, hc]) hbad
    · refine Or.inl ?_
      unfold kind
      split
      · rename_i heq
        exact absurd (List.cons.inj heq).1 hb
      · rfl

theorem extraArgument_behind (argv : List Bytes) (a b : UInt8) {c : UInt8} (hc : c ≠ 0) (s : Bytes)
    (i : Nat) : extraArgument argv (a :: b :: c :: s) i = some (some (c :: s), i) := by
  simp [extraArgument, character, hc, bind]

theorem extraArgument_next (argv : List Bytes) (a b : UInt8) (i : Nat) :
    extraArgument argv [a, b] i = (argument argv (i + 1)).map fun next => (next, i + 1) := by
  simp [extraArgument, character, bind]

/-- One round for an option whose argument, if it has one, is not apart. -/
theorem runargsLoop_option {n fuel : Nat} {pre args : List Bytes} {arg : Bytes} {o : Opt}
    (hn : pre.length < n) (h : Spelled arg o) (hz : 0 ∉ arg) (L : State ω σ) :
    runargsLoop I (pre ++ arg :: args) n (fuel + 1) pre.length L =
      exec I o L >>= fun r =>
        if r.1 ≠ .ok then pure (false, r.2)
        else runargsLoop I (pre ++ arg :: args) n fuel (pre.length + 1) r.2 := by
  have hat := argument_append pre (arg :: args) 0 (Nat.zero_le _)
  rw [Nat.add_zero, List.getElem?_cons_zero] at hat
  simp only [runargsLoop, if_pos hn, hat, lift_some, pure_bind]
  cases h with
  | E => simp [character, exec]
  | i => simp [character, exec]
  | v => simp [character, exec]
  | e b s =>
    have hb : b ≠ 0 := fun hb => hz (by simp [hb])
    simp [character, exec, extraArgument_behind _ _ _ hb]
  | l b s =>
    have hb : b ≠ 0 := fun hb => hz (by simp [hb])
    simp [character, exec, extraArgument_behind _ _ _ hb]

/-- One round for an option whose argument is the next one. -/
theorem runargsLoop_wants {n fuel : Nat} {pre args : List Bytes} {arg next : Bytes}
    {o : Bytes → Opt} (hn : pre.length < n)
    (h : arg = [45, 101] ∧ o = .e ∨ arg = [45, 108] ∧ o = .l) (L : State ω σ) :
    runargsLoop I (pre ++ arg :: next :: args) n (fuel + 1) pre.length L =
      exec I (o next) L >>= fun r =>
        if r.1 ≠ .ok then pure (false, r.2)
        else runargsLoop I (pre ++ arg :: next :: args) n fuel (pre.length + 2) r.2 := by
  have hat := argument_append pre (arg :: next :: args) 0 (Nat.zero_le _)
  have hnext := argument_append pre (arg :: next :: args) 1 (by simp)
  rw [Nat.add_zero, List.getElem?_cons_zero] at hat
  rw [List.getElem?_cons_succ, List.getElem?_cons_zero] at hnext
  simp only [runargsLoop, if_pos hn, hat, lift_some, pure_bind]
  cases h with
  | inl h =>
    obtain ⟨rfl, rfl⟩ := h
    simp [character, exec, extraArgument_next, hnext]
  | inr h =>
    obtain ⟨rfl, rfl⟩ := h
    simp [character, exec, extraArgument_next, hnext]

/-- The `--` that ends the options is passed over. -/
theorem runargsLoop_dashes {fuel : Nat} {pre args : List Bytes} (L : State ω σ) :
    runargsLoop I (pre ++ [45, 45] :: args) (pre.length + 1) (fuel + 2) pre.length L =
      pure (true, L) := by
  have hat := argument_append pre ([45, 45] :: args) 0 (Nat.zero_le _)
  rw [Nat.add_zero, List.getElem?_cons_zero] at hat
  simp [runargsLoop, hat, character]

def Opt.Plain : Opt → Prop
  | .e stat => 0 ∉ stat
  | .l name => 0 ∉ name
  | _ => True

theorem Spelled.plain {arg : Bytes} {o : Opt} (h : Spelled arg o) (hz : 0 ∉ arg) : o.Plain := by
  cases h with
  | E => trivial
  | i => trivial
  | v => trivial
  | e b s => exact fun h0 => hz (by simp [h0])
  | l b s => exact fun h0 => hz (by simp [h0])

theorem exec_eq {o : Opt} (h : o.Plain) (s : List (Value ω)) (w : World σ) :
    exec I o ⟨s, w, p⟩ = (fun r => (r.1, ⟨s, r.2, p⟩)) <$> runOption I p w o := by
  cases o with
  | e stat => rw [exec, dostring_eq h, lift_map, runOption]
  | l name => exact dolibrary_eq h s w
  | E => rfl
  | i => rfl
  | v => rfl

theorem map_eq_ok {r : Except (List Bytes) (List Opt × List Bytes)} {o : Opt} {opts : List Opt}
    {rest : List Bytes} (h : r.map (fun r => (o :: r.1, r.2)) = .ok (opts, rest)) :
    ∃ opts', opts = o :: opts' ∧ r = .ok (opts', rest) := by
  cases r with
  | error bad => cases h
  | ok r =>
    simp only [Except.map, Except.ok.injEq, Prod.mk.injEq] at h
    exact ⟨r.1, h.1.symm, by rw [← h.2]⟩

theorem error_of_map {r : Except (List Bytes) (List Opt × List Bytes)}
    {f : List Opt × List Bytes → List Opt × List Bytes} {more : List Bytes}
    (h : r.map f = .error more) : r = .error more := by
  cases r with
  | error bad => exact h
  | ok r => cases h

theorem length_rest {args rest : List Bytes} {opts : List Opt}
    (h : parseOptions args = .ok (opts, rest)) : rest.length ≤ args.length := by
  fun_induction parseOptions args generalizing opts with
  | case1 =>
    obtain ⟨_, rfl⟩ := Prod.mk.inj (Except.ok.inj h)
    exact le_refl _
  | case2 arg args hk =>
    obtain ⟨_, rfl⟩ := Prod.mk.inj (Except.ok.inj h)
    exact le_refl _
  | case3 arg args hk =>
    obtain ⟨_, rfl⟩ := Prod.mk.inj (Except.ok.inj h)
    exact Nat.le_succ _
  | case4 arg args hk => cases h
  | case5 arg args o hk ih =>
    obtain ⟨_, _, hr⟩ := map_eq_ok h
    exact (ih hr).trans (Nat.le_succ _)
  | case6 arg o hk => cases h
  | case7 arg o hk next args hn => cases h
  | case8 arg o hk next args hn ih =>
    obtain ⟨_, _, hr⟩ := map_eq_ok h
    exact (ih hr).trans (by simp; omega)

theorem spelled_of_kind {arg : Bytes} {o : Opt} (h : kind arg = .option o) : Spelled arg o := by
  rcases kind_cases arg with hk | hk | ⟨_, hk⟩ | ⟨_, hk⟩ | ⟨_, hk⟩ | ⟨o', ho, hk⟩
  all_goals rw [hk] at h
  all_goals cases h
  exact ho

theorem wants_of_kind {arg : Bytes} {o : Bytes → Opt} (h : kind arg = .wants o) :
    arg = [45, 101] ∧ o = .e ∨ arg = [45, 108] ∧ o = .l := by
  rcases kind_cases arg with hk | hk | ⟨_, hk⟩ | ⟨harg, hk⟩ | ⟨harg, hk⟩ | ⟨o', _, hk⟩
  all_goals rw [hk] at h
  all_goals cases h
  · exact Or.inl ⟨harg, rfl⟩
  · exact Or.inr ⟨harg, rfl⟩

theorem dashes_of_kind {arg : Bytes} (h : kind arg = .dashes) : arg = [45, 45] := by
  rcases kind_cases arg with hk | hk | ⟨harg, hk⟩ | ⟨_, hk⟩ | ⟨_, hk⟩ | ⟨o', _, hk⟩
  all_goals rw [hk] at h
  all_goals cases h
  exact harg

theorem runargsLoop_end {argv : List Bytes} {n fuel i : Nat} (h : n ≤ i) (L : State ω σ) :
    runargsLoop I argv n (fuel + 1) i L = pure (true, L) := by
  rw [runargsLoop, if_neg (by omega)]

/-- What follows one option: the next ones, if its code has not failed. -/
theorem rounds_eq {argv : List Bytes} {n fuel i : Nat} {o : Opt} {opts : List Opt} (ho : o.Plain)
    (s : List (Value ω)) (w : World σ)
    (ih : ∀ w, runargsLoop I argv n fuel i ⟨s, w, p⟩ =
      (fun r => (r.1, ⟨s, r.2, p⟩)) <$> runOptions I p opts w) :
    (exec I o ⟨s, w, p⟩ >>= fun r =>
        if r.1 ≠ .ok then pure (false, r.2)
        else runargsLoop I argv n fuel i r.2) =
      (fun r => (r.1, ⟨s, r.2, p⟩)) <$> runOptions I p (o :: opts) w := by
  rw [exec_eq ho, runOptions, bind_map_left, map_bind]
  refine bind_congr fun r => ?_
  by_cases hok : r.1 = .ok
  · simp [hok, ih]
  · simp [hok]

/-- The rounds from an argument on run the options that are parsed from there. -/
theorem runargsLoop_eq {fuel n : Nat} {pre args rest : List Bytes} {opts : List Opt}
    (hargs : CStrings args) (hparse : parseOptions args = .ok (opts, rest))
    (hn : n + rest.length = pre.length + args.length) (hfuel : n < fuel + pre.length)
    (s : List (Value ω)) (w : World σ) :
    runargsLoop I (pre ++ args) n (fuel + 1) pre.length ⟨s, w, p⟩ =
      (fun r => (r.1, ⟨s, r.2, p⟩)) <$> runOptions I p opts w := by
  fun_induction parseOptions args generalizing fuel pre opts w with
  | case1 =>
    obtain ⟨rfl, rfl⟩ := Prod.mk.inj (Except.ok.inj hparse)
    rw [runargsLoop_end (by simp at hn; omega)]
    rfl
  | case2 arg args hk =>
    obtain ⟨rfl, rfl⟩ := Prod.mk.inj (Except.ok.inj hparse)
    rw [runargsLoop_end (by omega)]
    rfl
  | case3 arg args hk =>
    obtain ⟨rfl, rfl⟩ := Prod.mk.inj (Except.ok.inj hparse)
    rw [List.length_cons] at hn
    obtain rfl : n = pre.length + 1 := by omega
    obtain ⟨fuel, rfl⟩ : ∃ m, fuel = m + 1 := ⟨fuel - 1, by omega⟩
    rw [dashes_of_kind hk, runargsLoop_dashes]
    rfl
  | case4 arg args hk => cases hparse
  | case5 arg args o hk ih =>
    obtain ⟨opts', rfl, hr⟩ := map_eq_ok hparse
    have hrest := length_rest hr
    have hspelled := spelled_of_kind hk
    have harg := hargs arg List.mem_cons_self
    rw [List.length_cons] at hn
    obtain ⟨fuel, rfl⟩ : ∃ m, fuel = m + 1 := ⟨fuel - 1, by omega⟩
    rw [runargsLoop_option (by omega) hspelled harg]
    apply rounds_eq (hspelled.plain harg)
    intro w
    have ih := @ih fuel (pre ++ [arg]) opts'
      (fun a ha => hargs a (List.mem_cons_of_mem arg ha)) hr (by simp; omega) (by simp; omega) w
    simpa using ih
  | case6 arg o hk => cases hparse
  | case7 arg o hk next args hn => cases hparse
  | case8 arg o hk next args hnext ih =>
    obtain ⟨opts', rfl, hr⟩ := map_eq_ok hparse
    have hrest := length_rest hr
    have hwants := wants_of_kind hk
    have hplain : (o next).Plain := by
      have hz : 0 ∉ next := hargs next (by simp)
      cases hwants with
      | inl h => exact h.2 ▸ hz
      | inr h => exact h.2 ▸ hz
    rw [List.length_cons, List.length_cons] at hn
    obtain ⟨fuel, rfl⟩ : ∃ m, fuel = m + 1 := ⟨fuel - 1, by omega⟩
    rw [runargsLoop_wants (by omega) hwants]
    apply rounds_eq hplain
    intro w
    have ih := @ih fuel (pre ++ [arg, next]) opts'
      (fun a ha => hargs a (by simp [ha])) hr (by simp; omega) (by simp; omega) w
    simpa using ih

/-- The two passes agree on where the options end, and the second one runs each of them once, in
order, up to the first whose code fails. -/
theorem runargs_runs_options (I : Interpreter ω σ) {args rest : List Bytes} {opts : List Opt}
    (hargs : CStrings args) (hparse : parseOptions args = .ok (opts, rest)) (name : Bytes)
    (s : List (Value ω)) (w : World σ) (p : Option Bytes) :
    ∃ first, first + rest.length = (name :: args).length ∧
      collectargs (name :: args) = some (.mask (opts.foldl Mask.add {}), first) ∧
      runargs I (name :: args) first ⟨s, w, p⟩ =
        (fun r => (r.1, ⟨s, r.2, p⟩)) <$> runOptions I p opts w := by
  have hlen := length_rest hparse
  have hcollect := @collectLoop_eq (name :: args).length [name] args hargs (by simp) {}
  rw [hparse] at hcollect
  refine ⟨(name :: args).length - rest.length, by simp; omega, hcollect, ?_⟩
  have hrun := @runargsLoop_eq ω σ I p ((name :: args).length - rest.length)
    ((name :: args).length - rest.length) [name] args rest opts hargs hparse
    (by simp; omega) (by simp) s w
  exact hrun

def sampleArgs : List Bytes :=
  [text "-e", text "return 7", text "-i", text "-edo", text "-lx", text "a.lua"]

/-- The second statement is not complete, so the library behind it is not loaded. -/
theorem runargs_sample : ∃ first w, first + 1 = (text "lua" :: sampleArgs).length ∧
    collectargs (text "lua" :: sampleArgs) =
      some (.mask { has_i := true, has_v := true, has_e := true }, first) ∧
    runargs sampleInterpreter (text "lua" :: sampleArgs) first
      ⟨[], ⟨(), [], []⟩, some (text "lua")⟩ = pure (false, ⟨[], w, some (text "lua")⟩) ∧
    w.written =
      [.stderr (text "lua: "), .stderr (text "'end' expected near <eof>" ++ text "\n")] := by
  have hzero : CStrings sampleArgs := by simp [CStrings, sampleArgs, text]
  have hparse : parseOptions sampleArgs =
      .ok ([.e (text "return 7"), .i, .e (text "do"), .l (text "x")], [text "a.lua"]) := by
    decide +kernel
  obtain ⟨first, hfirst, hcollect, hrun⟩ := runargs_runs_options sampleInterpreter
    hzero hparse (text "lua") [] ⟨(), [], []⟩ (some (text "lua"))
  exact ⟨first, _, hfirst, hcollect, hrun, by decide +kernel⟩

/-! ### Wrong options -/

/-- `-e` or `-l` at the end, or with another option behind it. -/
def NeedsArgument (bad : Bytes) (rest : List Bytes) : Prop :=
  (bad = [45, 101] ∨ bad = [45, 108]) ∧ ∀ next ∈ rest.head?, next.head? = some 45

/-- The arguments before a wrong one are options, all of them right. -/
theorem parseOptions_error {args more : List Bytes} (h : parseOptions args = .error more) :
    ∃ good bad rest opts, args = good ++ bad :: rest ∧ more = bad :: rest ∧
      parseOptions good = .ok (opts, []) ∧ (kind bad = .bad ∨ NeedsArgument bad rest) := by
  fun_induction parseOptions args with
  | case1 => cases h
  | case2 arg args hk => cases h
  | case3 arg args hk => cases h
  | case4 arg args hk =>
    obtain rfl := Except.error.inj h
    exact ⟨[], arg, args, [], rfl, rfl, rfl, Or.inl hk⟩
  | case5 arg args o hk ih =>
    obtain ⟨good, bad, rest, opts, rfl, hmore, hgood, hbad⟩ := ih (error_of_map h)
    refine ⟨arg :: good, bad, rest, o :: opts, rfl, hmore, ?_, hbad⟩
    simp only [parseOptions, hk, hgood, Except.map]
  | case6 arg o hk =>
    obtain rfl := Except.error.inj h
    refine ⟨[], arg, [], [], rfl, rfl, rfl, Or.inr ⟨?_, by simp⟩⟩
    exact (wants_of_kind hk).imp And.left And.left
  | case7 arg o hk next args hnext =>
    obtain rfl := Except.error.inj h
    refine ⟨[], arg, next :: args, [], rfl, rfl, rfl, Or.inr ⟨?_, by simpa using hnext⟩⟩
    exact (wants_of_kind hk).imp And.left And.left
  | case8 arg o hk next args hnext ih =>
    obtain ⟨good, bad, rest, opts, rfl, hmore, hgood, hbad⟩ := ih (error_of_map h)
    refine ⟨arg :: next :: good, bad, rest, o next :: opts, rfl, hmore, ?_, hbad⟩
    simp only [parseOptions, hk, if_neg hnext, hgood, Except.map]

theorem letter_of_bad {arg : Bytes} (h : kind arg = .bad) :
    ∃ c extra, arg = 45 :: c :: extra ∧ c ≠ 101 ∧ c ≠ 108 := by
  unfold kind at h
  split at h
  · rename_i c extra
    refine ⟨c, extra, rfl, ?_, ?_⟩
    · rintro rfl
      cases extra with
      | nil => cases h
      | cons b extra => cases h
    · rintro rfl
      cases extra with
      | nil => cases h
      | cons b extra => cases h
  · cases h

/-- The line of the usage that names an option. -/
def complaint (badoption : Bytes) (needsArgument : Bool) : Write :=
  if needsArgument then .stderr (text "'" ++ badoption ++ text "' needs argument\n")
  else .stderr (text "unrecognized option '" ++ badoption ++ text "'\n")

theorem usage_bad (progname : Bytes) {bad : Bytes} (h : kind bad = .bad) :
    (usage progname bad).map (fun lines => lines[1]?) = some (complaint bad false) := by
  obtain ⟨c, extra, rfl, he, hl⟩ := letter_of_bad h
  simp [usage, character, he, hl, bind, complaint]

theorem usage_needs (progname : Bytes) {bad : Bytes} (h : bad = [45, 101] ∨ bad = [45, 108]) :
    (usage progname bad).map (fun lines => lines[1]?) = some (complaint bad true) := by
  cases h with
  | inl h => simp [h, usage, character, bind, complaint]
  | inr h => simp [h, usage, character, bind, complaint]

/-- A wrong command line is refused at its first wrong argument, and the usage says whether that
one is unknown or lacks its argument. -/
theorem wrong_option_named {args more : List Bytes} (hargs : CStrings args)
    (hparse : parseOptions args = .error more) (name progname : Bytes) :
    ∃ good bad rest opts, args = good ++ bad :: rest ∧ parseOptions good = .ok (opts, []) ∧
      collectargs (name :: args) = some (.has_error, good.length + 1) ∧
      argument (name :: args) (good.length + 1) = some (some bad) ∧
      ∃ needsArgument, (needsArgument = true ↔ NeedsArgument bad rest) ∧
        (usage progname bad).map (fun lines => lines[1]?) = some (complaint bad needsArgument) := by
  obtain ⟨good, bad, rest, opts, rfl, rfl, hgood, hbad⟩ := parseOptions_error hparse
  have hcollect := @collectLoop_eq (name :: (good ++ bad :: rest)).length [name] _ hargs
    (by simp) {}
  rw [hparse] at hcollect
  refine ⟨good, bad, rest, opts, rfl, hgood, ?_, ?_, ?_⟩
  · have hfirst : ([name] ++ (good ++ bad :: rest)).length - (bad :: rest).length =
        good.length + 1 := by simp; omega
    rw [collected, hfirst] at hcollect
    exact hcollect
  · have hat := argument_append (name :: good) (bad :: rest) 0 (Nat.zero_le _)
    simpa using hat
  · cases hbad with
    | inl hbad =>
      refine ⟨false, ?_, usage_bad progname hbad⟩
      obtain ⟨c, extra, rfl, he, hl⟩ := letter_of_bad hbad
      simp [NeedsArgument, he, hl]
    | inr hbad => exact ⟨true, by simp [hbad], usage_needs progname hbad.1⟩

theorem wrong_option_sample : ∃ bad needsArgument,
    collectargs [text "lua", text "-v", text "-e", text "-i"] = some (.has_error, 2) ∧
    argument [text "lua", text "-v", text "-e", text "-i"] 2 = some (some bad) ∧
    (usage (text "lua") bad).map (fun lines => lines[1]?) = some (complaint bad needsArgument) := by
  have hzero : CStrings [text "-v", text "-e", text "-i"] := by simp [CStrings, text]
  have hparse : parseOptions [text "-v", text "-e", text "-i"] =
      .error [text "-e", text "-i"] := by decide +kernel
  obtain ⟨good, bad, rest, opts, hargs, hgood, hcollect, hat, needsArgument, _, husage⟩ :=
    wrong_option_named hzero hparse (text "lua") (text "lua")
  have hsecond : collectargs [text "lua", text "-v", text "-e", text "-i"] =
      some (.has_error, 2) := by decide +kernel
  have hlength : good.length + 1 = 2 :=
    (Prod.mk.inj (Option.some.inj (hcollect.symm.trans hsecond))).2
  exact ⟨bad, needsArgument, hsecond, hlength ▸ hat, husage⟩

end OpcUaTestTool.ConsoleOptions
