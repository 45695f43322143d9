import OpcUaTestTool.LuaConsole

/-! The read-eval-print loop without a stack: what it reads, evaluates and prints, and that the
functions of the console do just that. -/
namespace OpcUaTestTool.ConsoleRepl
open Numerals FileSystem IndexedStack LuaConsole Raising
variable {ω σ : Type} (I : Interpreter ω σ)

/- What was there after a prompt was shown: the line, if there was one. -/
structure Asked (ω σ : Type) where
  world : World σ
  prompt : Value ω
  line : Option Bytes

def shown (firstline : Bool) (prompt : Value ω) : Write :=
  .stdout (cString (prompt.tostring.getD (LUA_PROMPT firstline)))

def ask (firstline : Bool) (w : World σ) (prompt : Value ω) : Asked ω σ :=
  let w := w.write [shown firstline prompt]
  match fgets LUA_MAXINPUT w.input with
  | none => ⟨w, prompt, none⟩
  | some (b, input) => ⟨{ w with input := input }, prompt, some (chomp b)⟩

/-- The prompt is looked up and shown, and a line is read if there is one. -/
def nextLine (firstline : Bool) (w : World σ) : LuaM ω σ (Asked ω σ) :=
  (fun r => ask firstline r.1 r.2) <$> unprotected (I.getglobal (promptName firstline) w)

def Incomplete (status : Status) (v : Value ω) : Prop :=
  status = .errSyntax ∧ ∃ msg, v.tostring = some msg ∧ EOFMARK <:+ msg

instance (status : Status) (v : Value ω) : Decidable (Incomplete status v) :=
  match h : v.tostring with
  | none => isFalse (by simp [Incomplete, h])
  | some msg => decidable_of_iff (status = .errSyntax ∧ EOFMARK <:+ msg) (by simp [Incomplete, h])

/- The status of the last attempt to load, none if there was no input, and the value that
is left. -/
structure Loaded (ω : Type) where
  status : Option Status
  value : Value ω

/-- Lines are added as long as they are an incomplete statement. -/
def statement : Nat → Bytes → World σ → LuaM ω σ (World σ × Loaded ω)
  | 0, _, _ => ExceptT.mk none
  | fuel + 1, chunk, w =>
    let r := I.load w.lua chunk (text "=stdin")
    if Incomplete r.1 r.2 then do
      let a ← nextLine I false w
      match a.line with
      | none => pure (a.world, ⟨some r.1, a.prompt.converted⟩)
      | some line => statement fuel (chunk ++ text "\n" ++ line) a.world
    else pure (w, ⟨some r.1, r.2⟩)

/-- For compatibility a line that begins with `=` is an expression. -/
def firstLine (line : Bytes) : Bytes :=
  if line.head? = some 61 then text "return " ++ line.tail else line

def asExpression (line : Bytes) : Bytes := text "return " ++ line ++ text ";"

/-- A line is tried as an expression, then as the beginning of a statement. -/
def readStatement (fuel : Nat) (w : World σ) : LuaM ω σ (World σ × Loaded ω) := do
  let a ← nextLine I true w
  match a.line with
  | none => pure (a.world, ⟨none, a.prompt.converted⟩)
  | some line =>
    let r := I.load a.world.lua (asExpression (firstLine line)) (text "=stdin")
    if r.1 = .ok then pure (a.world, ⟨some r.1, r.2⟩)
    else statement I fuel (firstLine line) a.world

def reported (v : Value ω) : Write :=
  .stderr ((v.tostring.map cString).getD (text "(null)") ++ text "\n")

/-- The results of a call are given to `print`. -/
def print (results : List (Value ω)) (w : World σ) : LuaM ω σ (World σ) :=
  if results = [] then pure w
  else do
    luaL_checkstack I LUA_MINSTACK (text "too many results to print") ⟨results, w, none⟩
    let (w, f) ← unprotected (I.getglobal (text "print") w)
    let (w, c) ← I.pcall none f results w
    match c with
    | .ok _ => pure w
    | .error (_, v) => pure (w.write [reported (.string (text "error calling 'print' (" ++
        (v.tostring.map cString).getD (text "(null)") ++ text ")") : Value ω)])

def evaluate (status : Status) (v : Value ω) (w : World σ) : LuaM ω σ (World σ) :=
  if status = .ok then do
    let (w, c) ← I.pcall (some (msghandler I)) v [] w
    match c with
    | .ok results => print I results w
    | .error (_, v) => pure (w.write [reported v])
  else pure (w.write [reported v])

/-- The loop, to the end of the input. -/
def repl : Nat → World σ → LuaM ω σ (World σ)
  | 0, _ => ExceptT.mk none
  | fuel + 1, w => do
    let (w, r) ← readStatement I fuel w
    match r.status with
    | none => pure w
    | some status =>
      let w ← evaluate I status r.value w
      repl fuel w

variable {I}

/-! ### The stack -/

theorem pop_push (L : State ω σ) (v : Value ω) : (L.push v).pop 1 = some L := by
  have h := pop_append L.stack [v]
  simp only [State.pop, State.push, List.length_singleton] at h ⊢
  rw [h, Option.map_some]

theorem tostring_push (L : State ω σ) (v : Value ω) : (L.push v).tostring (-1) = v.tostring := by
  have h := value_append (a := L.stack) (b := []) (v := v) (i := -1) (Or.inr rfl)
  rw [State.tostring, State.value, State.push, h, Option.bind_some]

theorem chomp_no_zero (b : Bytes) : 0 ∉ chomp b := by
  have hc : 0 ∉ cString b := by
    intro h
    have := List.mem_takeWhile_imp h
    simp at this
  unfold chomp
  split
  · exact fun h => hc (List.dropLast_subset _ h)
  · exact hc

theorem firstLine_no_zero {line : Bytes} (h : 0 ∉ line) : 0 ∉ firstLine line := by
  unfold firstLine
  split
  · intro hmem
    cases List.mem_append.mp hmem with
    | inl hmem => exact absurd hmem (by decide)
    | inr hmem => exact h (List.mem_of_mem_tail hmem)
  · exact h

theorem ask_no_zero {firstline : Bool} {w : World σ} {prompt : Value ω} {line : Bytes}
    (h : (ask firstline w prompt).line = some line) : 0 ∉ line := by
  unfold ask at h
  cases hf : fgets LUA_MAXINPUT (w.write [shown firstline prompt]).input with
  | none => simp [hf] at h
  | some r =>
    simp only [hf, Option.some.injEq] at h
    exact h ▸ chomp_no_zero r.1

theorem nextLine_no_zero {firstline : Bool} {w w' : World σ} {prompt : Value ω} {line : Bytes}
    (h : nextLine I firstline w = pure ⟨w', prompt, some line⟩) : 0 ∉ line := by
  obtain ⟨r, _, hr⟩ := map_eq_pure.mp h
  exact ask_no_zero (congrArg Asked.line hr)

/-- The stack when a prompt has been answered: the line is on it, or the prompt still is. -/
def answered (firstline : Bool) (L : State ω σ) (a : Asked ω σ) : Bool × State ω σ :=
  match a.line with
  | none => (false, { L with stack := L.stack ++ [a.prompt.converted], world := a.world })
  | some line => (true, { L with
      stack := L.stack ++ [.string (if firstline then firstLine line else line)]
      world := a.world })

/-- `pushline` pushes the line that comes next, or leaves the prompt. -/
theorem pushline_eq (firstline : Bool) (L : State ω σ) :
    pushline I firstline L = answered firstline L <$> nextLine I firstline L.world := by
  have hline (b : Bytes) : (if firstline ∧ (chomp b).head? = some 61 then
      text "return " ++ (chomp b).tail else chomp b) =
      if firstline then firstLine (chomp b) else chomp b := by
    cases firstline with
    | false => simp
    | true => simp [firstLine]
  have hpop (v : Value ω) := pop_append L.stack [v]
  have htop (v : Value ω) := value_append (a := L.stack) (b := []) (v := v) (i := -1) (Or.inr rfl)
  simp only [List.length_singleton] at hpop
  simp only [pushline, get_prompt, State.getglobal, nextLine, bind_assoc, pure_bind,
    map_eq_pure_bind]
  refine bind_congr fun r => ?_
  have hshown : .stdout (cString (r.2.tostring.getD (LUA_PROMPT firstline))) =
      shown firstline r.2 := rfl
  simp only [State.push, State.value, htop, lift_some, pure_bind, State.pop, hpop, Option.map_some,
    State.write, hshown, ask]
  cases hf : fgets LUA_MAXINPUT (r.1.write [shown firstline r.2]).input with
  | none => simp [answered]
  | some b => simp [answered, hline]

/-- `addreturn` leaves the chunk above the line, or only the line. -/
theorem addreturn_eq {line : Bytes} (hline : 0 ∉ line) (s : List (Value ω)) (w : World σ)
    (p : Option Bytes) :
    addreturn I ⟨s ++ [.string line], w, p⟩ = some
      (if (I.load w.lua (asExpression line) (text "=stdin")).1 = .ok then
        (.ok, ⟨s ++ [.string line, (I.load w.lua (asExpression line) (text "=stdin")).2], w, p⟩)
      else ((I.load w.lua (asExpression line) (text "=stdin")).1,
        ⟨s ++ [.string line], w, p⟩)) := by
  have hret : 0 ∉ asExpression line := by
    simp only [asExpression, List.mem_append, not_or]
    exact ⟨⟨by decide, hline⟩, by decide⟩
  have hexpr : text "return " ++ line ++ text ";" = asExpression line := rfl
  have htop : (⟨s ++ [.string line], w, p⟩ : State ω σ).tostring (-1) = some line :=
    tostring_push ⟨s, w, p⟩ (.string line)
  generalize hload : I.load w.lua (asExpression line) (text "=stdin") = r
  have hremove := remove_append (a := s ++ [.string line]) (b := [r.2])
    (v := .string (asExpression line)) (i := -2) (Or.inr rfl)
  have hpop := pop_append (s ++ [.string line]) [.string (asExpression line), r.2]
  simp only [List.append_assoc, List.cons_append, List.nil_append, List.length_cons,
    List.length_nil] at hremove hpop
  simp only [addreturn, htop, bind, Option.bind_some, cString_eq_self hline, hexpr,
    cString_eq_self hret, State.push, hload, State.remove, State.pop]
  simp only [List.append_assoc, List.cons_append, List.nil_append]
  by_cases hok : r.1 = .ok
  · simp [hok, hremove]
  · simp [hok, hpop]

theorem incomplete_eq {status : Status} {v : Value ω} (hv : status ≠ .ok → ∃ msg, v = .string msg)
    (L : State ω σ) : incomplete status (L.push v) =
      some (if Incomplete status v then (true, L) else (false, L.push v)) := by
  unfold incomplete
  by_cases hincomplete : status = .errSyntax
  · obtain ⟨msg, rfl⟩ := hv (by simp [hincomplete])
    simp only [if_pos hincomplete, tostring_push, Value.tostring, bind, Option.bind_some, pop_push]
    by_cases hmark : EOFMARK <:+ msg
    · have hinc : Incomplete status (.string msg : Value ω) := ⟨hincomplete, msg, rfl, hmark⟩
      rw [if_pos hmark, if_pos hinc]
    · have hinc : ¬ Incomplete status (.string msg : Value ω) := by
        rintro ⟨_, msg', hmsg, hmark'⟩
        obtain rfl : msg = msg' := Option.some.inj hmsg
        exact hmark hmark'
      rw [if_neg hmark, if_neg hinc]
  · have hinc : ¬ Incomplete status v := fun h => hincomplete h.1
    rw [if_neg hincomplete, if_neg hinc]

/-- A line is put behind the chunk. -/
theorem join_eq (chunk line : Bytes) (w : World σ) (p : Option Bytes) :
    ((State.push (⟨[.string chunk, .string line], w, p⟩ : State ω σ)
      (.string (text "\n"))).insert (-2)).bind (fun L => L.concat 3) =
      some ⟨[.string (chunk ++ text "\n" ++ line)], w, p⟩ := by
  have hinsert := insert_append (a := [(.string chunk : Value ω)]) (b := [.string line])
    (v := .string (text "\n")) (i := -2) (Or.inr rfl)
  have hpop := popValues_append ([] : List (Value ω))
    [.string chunk, .string (text "\n"), .string line]
  simp only [List.cons_append, List.nil_append, List.length_cons, List.length_nil] at hinsert hpop
  simp [State.insert, State.push, State.concat, hinsert, hpop, Value.tostring]

theorem remove_line (a : Value ω) (v : Value ω) (w : World σ) (p : Option Bytes) :
    (⟨[a, v], w, p⟩ : State ω σ).remove 1 = some ⟨[v], w, p⟩ := by
  have h := remove_append (a := []) (b := [v]) (v := a) (i := 1) (Or.inl rfl)
  rw [List.nil_append] at h
  rw [State.remove, h, Option.map_some, List.nil_append]

/-- `multiline` adds lines to what it has been given as `statement` does; what it has been given is
removed then. -/
theorem multiline_eq (fuel : Nat) (chunk : Bytes) (w : World σ) (p : Option Bytes) :
    (do
      let (status, L) ← multiline I fuel ⟨[.string chunk], w, p⟩
      let L ← L.remove 1
      if L.stack.length = 1 then pure (some status, L) else ExceptT.mk none) =
      (fun r => (r.2.status, ⟨[r.2.value], r.1, p⟩)) <$> statement I fuel chunk w := by
  induction fuel generalizing chunk w with
  | zero => rfl
  | succ fuel ih =>
    have hvalue : (⟨[.string chunk], w, p⟩ : State ω σ).tostring 1 = some chunk := rfl
    have hmessage : (I.load w.lua chunk (text "=stdin")).1 ≠ .ok →
        ∃ msg, (I.load w.lua chunk (text "=stdin")).2 = .string msg :=
      I.load_message _ _ _ _ _ rfl
    simp only [statement, multiline, hvalue, lift_some, pure_bind, incomplete_eq hmessage]
    by_cases hinc : Incomplete (I.load w.lua chunk (text "=stdin")).1
        (I.load w.lua chunk (text "=stdin")).2
    · simp only [if_pos hinc, if_true, pushline_eq, map_eq_pure_bind, bind_assoc, pure_bind]
      refine bind_congr fun a => ?_
      obtain ⟨w', prompt, line⟩ := a
      cases line with
      | none => simp [answered, remove_line]
      | some line =>
        have hjoin := join_eq (ω := ω) chunk line w' p
        cases hinsert : (State.push (⟨[.string chunk, .string line], w', p⟩ : State ω σ)
            (.string (text "\n"))).insert (-2) with
        | none => simp [hinsert] at hjoin
        | some L =>
          rw [hinsert, Option.bind_some] at hjoin
          have ih := ih (chunk ++ text "\n" ++ line) w'
          simp only [map_eq_pure_bind] at ih
          simp only [answered, Bool.false_eq_true, if_false, if_true, List.singleton_append,
            hinsert, hjoin, lift_some, pure_bind]
          exact ih
    · simp [hinc, State.push, remove_line]

/-- `loadline` leaves what was read of a statement, and nothing else, on the stack. -/
theorem loadline_eq (fuel : Nat) (L : State ω σ) :
    loadline I fuel L =
      (fun r => (r.2.status, ⟨[r.2.value], r.1, L.progname⟩)) <$> readStatement I fuel L.world := by
  obtain ⟨stack, w, p⟩ := L
  simp only [loadline, readStatement, pushline_eq, map_eq_pure_bind, bind_assoc, pure_bind]
  refine bind_congr_of_pure fun a ha => ?_
  obtain ⟨w', prompt, line⟩ := a
  cases line with
  | none => simp [answered]
  | some line =>
    have hzero := firstLine_no_zero (nextLine_no_zero ha)
    have hadd := addreturn_eq (I := I) hzero [] w' p
    have hmulti := multiline_eq (I := I) fuel (firstLine line) w' p
    simp only [List.nil_append, map_eq_pure_bind] at hadd hmulti
    simp only [answered, List.nil_append, if_true, hadd, lift_some, pure_bind]
    by_cases hok : (I.load w'.lua (asExpression (firstLine line)) (text "=stdin")).1 = .ok
    · simp [hok, remove_line]
    · simp only [if_neg hok]
      exact hmulti

/-- What a protected call leaves in place of the function and its arguments. -/
def returned (nres : Option Nat) (s : List (Value ω)) (p : Option Bytes)
    (c : World σ × Except (Status × Value ω) (List (Value ω))) : Status × State ω σ :=
  match c.2 with
  | .ok results => (.ok, ⟨s ++ adjust nres results, c.1, p⟩)
  | .error (status, v) => (status, ⟨s ++ [v], c.1, p⟩)

theorem pcall_eq (nres : Option Nat) (s : List (Value ω)) (f : Value ω) (args : List (Value ω))
    (w : World σ) (p : Option Bytes) :
    pcall I args.length nres 0 ⟨s ++ f :: args, w, p⟩ =
      (I.pcall none f args w).map (returned nres s p) := by
  have hpop := popValues_append s (f :: args)
  simp only [List.length_cons] at hpop
  simp only [pcall, hpop, bind, Option.bind_some, if_true]
  cases I.pcall none f args w with
  | none => rfl
  | some c =>
    obtain ⟨w', r⟩ := c
    cases r with
    | ok results => rfl
    | error e => rfl

theorem pcall_handled (nres : Option Nat) (s : List (Value ω)) (f : Value ω)
    (args : List (Value ω)) (w : World σ) (p : Option Bytes) :
    pcall I args.length nres (s.length + 1) ⟨s ++ .msghandler :: f :: args, w, p⟩ =
      (I.pcall (some (msghandler I)) f args w).map (returned nres (s ++ [.msghandler]) p) := by
  have hsplit : s ++ .msghandler :: f :: args = (s ++ [.msghandler]) ++ f :: args := by simp
  have hpop := popValues_append (s ++ [.msghandler]) (f :: args)
  have hvalue := value_append (a := s) (b := []) (v := (.msghandler : Value ω))
    (i := s.length + 1) (Or.inl rfl)
  have hne : (s.length + 1 : Int) ≠ 0 := by omega
  simp only [List.length_cons] at hpop
  simp only [pcall, hsplit, hpop, bind, Option.bind_some, if_neg hne, hvalue]
  cases I.pcall (some (msghandler I)) f args w with
  | none => rfl
  | some c =>
    obtain ⟨w', r⟩ := c
    cases r with
    | ok results => rfl
    | error e => rfl

theorem docall_eq (nres : Option Nat) (s : List (Value ω)) (f : Value ω) (args : List (Value ω))
    (w : World σ) (p : Option Bytes) :
    docall I args.length nres ⟨s ++ f :: args, w, p⟩ =
      (I.pcall (some (msghandler I)) f args w).map (returned nres s p) := by
  have hbase : ((s ++ f :: args).length : Int) - args.length = s.length + 1 := by
    simp only [List.length_append, List.length_cons]
    omega
  have hinsert := insert_append (a := s) (b := f :: args) (v := (.msghandler : Value ω))
    (i := s.length + 1) (Or.inl rfl)
  have hremove (results : List (Value ω)) := remove_append (a := s) (b := results)
    (v := (.msghandler : Value ω)) (i := s.length + 1) (Or.inl rfl)
  have hpushed : (⟨s ++ f :: args, w, p⟩ : State ω σ).push .msghandler =
      ⟨s ++ (f :: args ++ [.msghandler]), w, p⟩ := by simp [State.push]
  simp only [docall, hbase, hpushed, State.insert, hinsert, bind, Option.map_some,
    Option.bind_some, pcall_handled]
  cases I.pcall (some (msghandler I)) f args w with
  | none => rfl
  | some c =>
    obtain ⟨w', r⟩ := c
    cases r with
    | ok results => simp [State.remove, hremove, returned]
    | error e => simp [State.remove, hremove, returned]

/-- `l_print` prints the whole stack. -/
theorem l_print_eq (results : List (Value ω)) (w : World σ) :
    (fun L => (L.world, L.progname)) <$> l_print I ⟨results, w, none⟩ =
      (fun w => (w, none)) <$> print I results w := by
  cases results with
  | nil => rfl
  | cons r rs =>
    simp only [l_print, print, List.length_cons, Nat.zero_lt_succ, if_true, State.getglobal,
      map_eq_pure_bind, bind_assoc, pure_bind, reduceCtorEq, if_false]
    refine bind_congr fun _ => bind_congr fun g => ?_
    have hinsert := insert_append (a := []) (b := r :: rs) (v := g.2) (i := 1) (Or.inl rfl)
    have hcall := pcall_eq (I := I) (some 0) [] g.2 (r :: rs) g.1 none
    simp only [List.nil_append] at hinsert hcall
    simp only [State.insert, State.push, hinsert, Option.map_some, lift_some, pure_bind]
    rw [List.length_cons] at hcall
    rw [hcall]
    cases hc : I.pcall none g.2 (r :: rs) g.1 with
    | none => rfl
    | some c =>
      obtain ⟨w', c⟩ := c
      cases c with
      | ok results => rfl
      | error e =>
        obtain ⟨status, v⟩ := e
        have hstatus : status ≠ .ok := I.failed _ _ _ _ _ _ _ hc
        have htop := value_append (a := []) (b := []) (v := v) (i := -1) (Or.inr rfl)
        simp only [List.nil_append] at htop
        simp [returned, hstatus, l_message, State.write, State.tostring, State.value, htop,
          reported, Value.tostring]

/-- In the loop an error is reported without a program name. -/
theorem report_eq {status : Status} (hstatus : status ≠ .ok) (s : List (Value ω)) (v : Value ω)
    (w : World σ) : report status ⟨s ++ [v], w, none⟩ = some ⟨s, w.write [reported v], none⟩ := by
  have htop : (⟨s ++ [v], w, none⟩ : State ω σ).tostring (-1) = v.tostring :=
    tostring_push ⟨s, w, none⟩ v
  have hpop := pop_append s [v]
  simp only [List.length_singleton] at hpop
  simp [report, hstatus, htop, l_message, State.write, State.pop, hpop, reported]

/-- What was read is called and printed, or reported. -/
theorem evaluate_eq (status : Status) (v : Value ω) (w : World σ) :
    (fun L => (L.world, L.progname)) <$> replBody I status ⟨[v], w, none⟩ =
      (fun w => (w, none)) <$> evaluate I status v w := by
  unfold evaluate replBody
  by_cases hok : status = .ok
  · have hcall := docall_eq (I := I) none [] v [] w none
    simp only [List.length_nil, List.nil_append] at hcall
    rw [if_pos hok, if_pos hok, hcall]
    cases hc : I.pcall (some (msghandler I)) v [] w with
    | none => rfl
    | some c =>
      obtain ⟨w', c⟩ := c
      cases c with
      | ok results => simpa [returned, adjust] using l_print_eq results w'
      | error e =>
        obtain ⟨status, v⟩ := e
        have hstatus : status ≠ .ok := I.failed _ _ _ _ _ _ _ hc
        have hreport := report_eq hstatus [] v w'
        simp only [List.nil_append] at hreport
        simp [returned, hstatus, hreport]
  · have hreport := report_eq hok [] v w
    simp only [List.nil_append] at hreport
    simp [hok, hreport]

theorem replLoop_eq (fuel : Nat) (s : List (Value ω)) (w : World σ) :
    (fun L => (L.world, L.progname)) <$> replLoop I fuel ⟨s, w, none⟩ =
      (fun w => (w, none)) <$> repl I fuel w := by
  induction fuel generalizing s w with
  | zero => rfl
  | succ fuel ih =>
    simp only [replLoop, repl, loadline_eq, map_bind, bind_map_left]
    refine bind_congr fun r => ?_
    obtain ⟨w', status, v⟩ := r
    cases status with
    | none => simp
    | some status =>
      simp only [map_bind]
      refine bind_congr_of_map (evaluate_eq (I := I) status v w') fun L w'' hsame => ?_
      obtain ⟨s', world, p⟩ := L
      obtain ⟨rfl, rfl⟩ := Prod.mk.inj hsame
      exact ih s' world

/-! ### The end of the input -/

theorem length_takeLine (n : Nat) (s : Bytes) :
    (takeLine n s).1.length + (takeLine n s).2.length = s.length ∧
      (0 < n → s ≠ [] → 0 < (takeLine n s).1.length) := by
  induction n generalizing s with
  | zero => simp [takeLine]
  | succ n ih =>
    cases s with
    | nil => simp [takeLine]
    | cons c s =>
      by_cases hc : c = 10
      · simp [takeLine, hc]
        omega
      · have := (ih s).1
        simp only [takeLine, if_neg hc, List.length_cons]
        omega

/-- A line that is read is taken from the input. -/
theorem ask_length (firstline : Bool) (w : World σ) (prompt : Value ω) :
    (ask firstline w prompt).world.input.length ≤ w.input.length ∧
      ∀ line, (ask firstline w prompt).line = some line →
        (ask firstline w prompt).world.input.length < w.input.length := by
  have hinput : (w.write [shown firstline prompt]).input = w.input := rfl
  unfold ask
  dsimp only
  cases hf : fgets LUA_MAXINPUT (w.write [shown firstline prompt]).input with
  | none =>
    refine ⟨le_of_eq (by rw [hinput]), fun line hline => ?_⟩
    cases hline
  | some r =>
    have hlt : r.2.length < w.input.length := by
      unfold fgets at hf
      by_cases hnil : w.input = []
      · simp [hinput, hnil] at hf
      · have hlen := length_takeLine (LUA_MAXINPUT - 1) w.input
        have hpos := hlen.2 (by decide) hnil
        rw [hinput, if_neg hnil, Option.some.injEq] at hf
        rw [hf] at hlen hpos
        omega
    exact ⟨hlt.le, fun _ _ => hlt⟩

theorem unprotected_eq_pure {α : Type} {r : Option (World σ × Except (Status × Value ω) α)}
    {w : World σ} {a : α} (h : unprotected r = pure (w, a)) : r = some (w, .ok a) := by
  cases r with
  | none => cases h
  | some r =>
    obtain ⟨w', r⟩ := r
    cases r with
    | error e => cases h
    | ok a' =>
      obtain ⟨rfl, rfl⟩ := Prod.mk.inj (pure_inj.mp h)
      rfl

/-- Calls come to an end, and so do the lookups of globals. -/
structure CallsReturn (I : Interpreter ω σ) : Prop where
  calls : ∀ handler f args w, (I.pcall handler f args w).isSome
  lookups : ∀ name w, (I.getglobal name w).isSome

/-- An error of the metamethod of a name that the console looks up, or of a stack that is full. -/
inductive Uncaught (I : Interpreter ω σ) : Raised ω σ → Prop
  | lookup {name : Bytes} {w w' : World σ} {status : Status} {v : Value ω}
      (hname : name ∈ [text "_PROMPT", text "_PROMPT2", text "print"])
      (h : I.getglobal name w = some (w', .error (status, v))) : Uncaught I ⟨status, v, w'⟩
  | overflow {w : World σ} {n : Nat} (h : I.checkstack w.lua n LUA_MINSTACK = false) :
      Uncaught I ⟨.errRun, .string (text "stack overflow (too many results to print)"), w⟩

/-- No more input is there than before. -/
def Consumes (w w' : World σ) : Prop := w'.input.length ≤ w.input.length

theorem getglobal_spec {name : Bytes}
    (hname : name ∈ [text "_PROMPT", text "_PROMPT2", text "print"]) (w : World σ) :
    Spec (CallsReturn I) (Uncaught I) (fun r => Consumes w r.1)
      (unprotected (I.getglobal name w)) := by
  cases h : I.getglobal name w with
  | none =>
    refine Spec.none fun hcalls => ?_
    have hsome := hcalls.lookups name w
    rw [h] at hsome
    cases hsome
  | some r =>
    obtain ⟨w', r⟩ := r
    cases r with
    | ok v => exact Spec.pure (I.looks_up _ _ _ _ h)
    | error e => exact Spec.throw (.lookup hname h)

theorem pcall_spec (handler : Option (Handler ω σ)) (f : Value ω) (args : List (Value ω))
    (w : World σ) :
    Spec (CallsReturn I) (Uncaught I) (fun c => Consumes w c.1)
      (liftM (I.pcall handler f args w) : LuaM ω σ _) :=
  Spec.lift (fun hcalls => hcalls.calls handler f args w)
    fun _ h => I.consumes _ _ _ _ _ _ h

theorem nextLine_spec (firstline : Bool) (w : World σ) :
    Spec (CallsReturn I) (Uncaught I)
      (fun a => Consumes w a.world ∧
        ∀ line, a.line = some line → a.world.input.length < w.input.length)
      (nextLine I firstline w) := by
  have hname : promptName firstline ∈ [text "_PROMPT", text "_PROMPT2", text "print"] := by
    cases firstline with
    | false => simp [promptName]
    | true => simp [promptName]
  rw [nextLine, map_eq_pure_bind]
  refine (getglobal_spec hname w).bind fun r hle => Spec.pure ?_
  obtain ⟨hask, hline⟩ := ask_length firstline r.1 r.2
  exact ⟨hask.trans hle, fun line h => (hline line h).trans_le hle⟩

/-- Each line that is read uses up input, and the fuel is enough for all of them. -/
theorem statement_spec (fuel : Nat) (chunk : Bytes) (w : World σ) :
    Spec (CallsReturn I ∧ w.input.length < fuel) (Uncaught I) (fun r => Consumes w r.1)
      (statement I fuel chunk w) := by
  induction fuel generalizing chunk w with
  | zero => exact Spec.none fun h => Nat.not_lt_zero _ h.2
  | succ fuel ih =>
    unfold statement
    by_cases hinc : Incomplete (I.load w.lua chunk (text "=stdin")).1
        (I.load w.lua chunk (text "=stdin")).2
    · simp only [if_pos hinc]
      refine ((nextLine_spec false w).weaken And.left fun _ h => h).bind fun a ha => ?_
      obtain ⟨w', prompt, line⟩ := a
      cases line with
      | none => exact Spec.pure ha.1
      | some line =>
        have hlt := ha.2 line rfl
        exact (ih _ w').weaken (fun h => ⟨h.1, by dsimp only at hlt; omega⟩)
          fun _ hle => hle.trans ha.1
    · simp only [if_neg hinc]
      exact Spec.pure (le_refl _)

theorem readStatement_spec (fuel : Nat) (w : World σ) :
    Spec (CallsReturn I ∧ w.input.length ≤ fuel) (Uncaught I)
      (fun r => r.2.status ≠ none → r.1.input.length < w.input.length)
      (readStatement I fuel w) := by
  refine ((nextLine_spec true w).weaken And.left fun _ h => h).bind fun a ha => ?_
  obtain ⟨w', prompt, line⟩ := a
  cases line with
  | none => exact Spec.pure fun h => absurd rfl h
  | some line =>
    have hlt := ha.2 line rfl
    dsimp only at hlt ⊢
    split
    · exact Spec.pure fun _ => hlt
    · exact (statement_spec fuel _ w').weaken (fun h => ⟨h.1, by omega⟩)
        fun _ hle _ => lt_of_le_of_lt hle hlt

theorem print_spec (results : List (Value ω)) (w : World σ) :
    Spec (CallsReturn I) (Uncaught I) (Consumes w) (print I results w) := by
  unfold print
  split
  · exact Spec.pure (le_refl _)
  · have hroom : Spec (CallsReturn I) (Uncaught I) (fun _ => True)
        (luaL_checkstack I LUA_MINSTACK (text "too many results to print")
          ⟨results, w, none⟩) := by
      unfold luaL_checkstack
      split
      · exact Spec.pure trivial
      · rename_i hfull
        exact Spec.throw (.overflow (by simpa using hfull))
    refine hroom.bind fun _ _ => (getglobal_spec (by simp) w).bind fun g hg =>
      (pcall_spec none g.2 results g.1).bind fun c hc => ?_
    obtain ⟨w', c⟩ := c
    have hle : Consumes w w' := hc.trans hg
    cases c with
    | ok _ => exact Spec.pure hle
    | error _ => exact Spec.pure hle

theorem evaluate_spec (status : Status) (v : Value ω) (w : World σ) :
    Spec (CallsReturn I) (Uncaught I) (Consumes w) (evaluate I status v w) := by
  unfold evaluate
  split
  · refine (pcall_spec _ v [] w).bind fun c hc => ?_
    obtain ⟨w', c⟩ := c
    cases c with
    | ok results => exact (print_spec results w').weaken id fun _ hle => hle.trans hc
    | error _ => exact Spec.pure hc
  · exact Spec.pure (le_refl _)

theorem repl_spec (fuel : Nat) (w : World σ) :
    Spec (CallsReturn I ∧ w.input.length < fuel) (Uncaught I) (fun _ => True)
      (repl I fuel w) := by
  induction fuel generalizing w with
  | zero => exact Spec.none fun h => Nat.not_lt_zero _ h.2
  | succ fuel ih =>
    refine ((readStatement_spec fuel w).weaken (fun h => ⟨h.1, Nat.le_of_lt_succ h.2⟩)
      fun _ h => h).bind fun r hr => ?_
    obtain ⟨w', status, v⟩ := r
    cases status with
    | none => exact Spec.pure trivial
    | some status =>
      have hlt := hr (by simp)
      refine ((evaluate_spec status v w').weaken And.left fun _ h => h).bind fun w'' hle => ?_
      rw [Consumes] at hle
      exact (ih w'').weaken (fun h => ⟨h.1, by dsimp only at hlt; omega⟩) fun _ h => h

/-- Whatever Lua does with chunks, calls and the names of globals, whatever is on the stack, and for
any input, `doREPL` reads, evaluates and prints as the loop without a stack does: no index leads
off the stack, and the assertion holds. What is raised out of it is the error of a lookup of
`_PROMPT`, `_PROMPT2` or `print`, or of a stack without room for `print`. Where calls and lookups
come to an end it returns with the end of the input, unless such an error is raised. -/
theorem doREPL_refines (I : Interpreter ω σ) (fuel : Nat) (L : State ω σ) :
    doREPL I fuel L =
      (fun w => ⟨[], w.write [.stdout (text "\n")], L.progname⟩) <$> repl I fuel L.world ∧
    Raises (Uncaught I) (doREPL I fuel L) ∧
    (CallsReturn I → L.world.input.length < fuel → Ends (doREPL I fuel L)) := by
  have heq : doREPL I fuel L =
      (fun w => ⟨[], w.write [.stdout (text "\n")], L.progname⟩) <$> repl I fuel L.world := by
    rw [map_eq_pure_bind]
    refine bind_congr_of_map (replLoop_eq (I := I) fuel L.stack L.world) fun L' w hsame => ?_
    obtain ⟨rfl, _⟩ := Prod.mk.inj hsame
    rfl
  have hspec : Spec (CallsReturn I ∧ L.world.input.length < fuel) (Uncaught I) (fun _ => True)
      (doREPL I fuel L) := by
    rw [heq, map_eq_pure_bind]
    exact (repl_spec fuel L.world).bind fun _ _ => Spec.pure trivial
  exact ⟨heq, hspec.raises, fun hcalls hfuel => hspec.ends ⟨hcalls, hfuel⟩⟩

/- Two statements, one of them over two lines; `print` writes the strings it is given. -/
def sampleLoad (chunk : Bytes) : Status × Value Nat :=
  if chunk = text "return 7" then (.ok, .object 7)
  else if chunk = text "do\nend" then (.ok, .object 1)
  else if chunk = text "do" then (.errSyntax, .string (text "'end' expected near <eof>"))
  else (.errSyntax, .string (text "syntax error"))

def sampleCall (f : Value Nat) (args : List (Value Nat)) (w : World Unit) :
    World Unit × Except (Status × Value Nat) (List (Value Nat)) :=
  match f with
  | .object 7 => (w, .ok [.number (text "7")])
  | .object 1 => (w, .ok [])
  | .object 0 =>
    (w.write [.stdout ((args.filterMap Value.tostring).flatten ++ text "\n")], .ok [])
  | _ => (w, .error (.errRun, .string (text "attempt to call a nil value")))

def sampleInterpreter : Interpreter Nat Unit where
  load _ chunk _ := sampleLoad chunk
  getglobal name w := some (w, .ok (if name = text "print" then .object 0 else .nil))
  setglobal _ _ w := some (w, .ok ())
  checkstack _ top space := decide (top + space ≤ 1000000)
  pcall _ f args w := some (sampleCall f args w)
  callmeta _ _ := none
  typename _ := text "userdata"
  traceback _ msg := msg
  load_message := by
    intro s chunk name status v h hne
    unfold sampleLoad at h
    split at h
    · exact absurd (congrArg Prod.fst h).symm hne
    · split at h
      · exact absurd (congrArg Prod.fst h).symm hne
      · split at h
        · exact ⟨_, (congrArg Prod.snd h).symm⟩
        · exact ⟨_, (congrArg Prod.snd h).symm⟩
  looks_up := by
    intro name w w' r h
    obtain ⟨rfl, _⟩ := Prod.mk.inj (Option.some.inj h)
    exact le_refl _
  consumes := by
    intro handler f args w w' r h
    rw [Option.some.injEq] at h
    unfold sampleCall at h
    split at h <;> (obtain ⟨rfl, rfl⟩ := Prod.mk.inj h; exact le_refl _)
  failed := by
    intro handler f args w w' status v h
    rw [Option.some.injEq] at h
    unfold sampleCall at h
    split at h <;> simp at h
    rw [← h.2.1]
    decide
  handled := by
    intro handler f args w w' status v h
    rw [Option.some.injEq] at h
    unfold sampleCall at h
    split at h <;> simp at h
    exact Or.inr ⟨_, h.2.2.symm⟩

def sampleInput : Bytes := text "=7\ndo\nend\ndo"

/-- The value of an expression, and the second prompt, which is not set, for the unfinished
statement at the end. -/
theorem doREPL_sample : ∃ w, doREPL sampleInterpreter 20 ⟨[], ⟨(), sampleInput, []⟩, none⟩ =
      pure ⟨[], w, none⟩ ∧
    w.written = [.stdout (text "> "), .stdout (text "7\n"), .stdout (text "> "),
      .stdout (text ">> "), .stdout (text "> "), .stdout (text ">> "),
      .stderr (text "(null)\n"), .stdout (text "> "), .stdout (text "\n")] ∧
    Ends (doREPL sampleInterpreter 20 ⟨[], ⟨(), sampleInput, []⟩, none⟩) := by
  have hrepl : ∃ w, repl sampleInterpreter 20 ⟨(), sampleInput, []⟩ = pure w ∧
      (w.write [.stdout (text "\n")]).written = [.stdout (text "> "), .stdout (text "7\n"),
        .stdout (text "> "), .stdout (text ">> "), .stdout (text "> "), .stdout (text ">> "),
        .stderr (text "(null)\n"), .stdout (text "> "), .stdout (text "\n")] :=
    ⟨_, rfl, by decide +kernel⟩
  obtain ⟨w, hw, hwritten⟩ := hrepl
  obtain ⟨heq, _, hends⟩ := doREPL_refines sampleInterpreter 20 ⟨[], ⟨(), sampleInput, []⟩, none⟩
  rw [hw, map_pure] at heq
  exact ⟨_, heq, hwritten, hends ⟨fun _ _ _ _ => rfl, fun _ _ => rfl⟩ (by decide)⟩

end OpcUaTestTool.ConsoleRepl
