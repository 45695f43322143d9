import OpcUaTestTool.ConsoleRepl
import OpcUaTestTool.ReplInput

/-! The lines that the console reads: which of them make a statement, and that they are the lines
that were submitted to the REPL. -/
namespace OpcUaTestTool.ConsoleLines
open Numerals FileSystem LuaConsole ConsoleRepl ReplInput Raising
variable {ω σ : Type} {I : Interpreter ω σ}

/-- The next lines of the input, as `pushline` hands them on. -/
def lines : Nat → Bytes → List Bytes
  | 0, _ => []
  | n + 1, s =>
    match fgets LUA_MAXINPUT s with
    | none => []
    | some (b, s) => chomp b :: lines n s

/-- The input behind them. -/
def rest : Nat → Bytes → Bytes
  | 0, s => s
  | n + 1, s =>
    match fgets LUA_MAXINPUT s with
    | none => s
    | some (_, s) => rest n s

def joined (line : Bytes) (ls : List Bytes) : Bytes :=
  ls.foldl (fun chunk l => chunk ++ text "\n" ++ l) line

def IsIncomplete (I : Interpreter ω σ) (lua : σ) (chunk : Bytes) : Prop :=
  Incomplete (I.load lua chunk (text "=stdin")).1 (I.load lua chunk (text "=stdin")).2

/- Lines that continue a chunk: up to the first that completes it, or makes it wrong, or to the end
of the input. The number is that of the times a line was asked for. -/
inductive Continues (I : Interpreter ω σ) (lua : σ) (prompt : Value ω) (chunk : Bytes)
    (ls : List Bytes) (left : Bytes) : Loaded ω → Nat → Prop
  | loaded (more : ∀ i < ls.length, IsIncomplete I lua (joined chunk (ls.take i)))
      (done : ¬ IsIncomplete I lua (joined chunk ls)) :
      Continues I lua prompt chunk ls left ⟨some (I.load lua (joined chunk ls) (text "=stdin")).1,
        (I.load lua (joined chunk ls) (text "=stdin")).2⟩ ls.length
  | unfinished (more : ∀ i ≤ ls.length, IsIncomplete I lua (joined chunk (ls.take i)))
      (ended : left = []) :
      Continues I lua prompt chunk ls left ⟨some .errSyntax, prompt.converted⟩ (ls.length + 1)

/- A line is an expression, or the beginning of a statement. -/
inductive IsRead (I : Interpreter ω σ) (lua : σ) (prompt : Value ω) (line : Bytes)
    (ls : List Bytes) (left : Bytes) : Loaded ω → Nat → Prop
  | expression (hok : (I.load lua (asExpression line) (text "=stdin")).1 = .ok) (alone : ls = []) :
      IsRead I lua prompt line ls left
        ⟨some .ok, (I.load lua (asExpression line) (text "=stdin")).2⟩ 0
  | statement {r : Loaded ω} {n : Nat}
      (hnot : (I.load lua (asExpression line) (text "=stdin")).1 ≠ .ok)
      (h : Continues I lua prompt line ls left r n) : IsRead I lua prompt line ls left r n

theorem Continues.cons {lua : σ} {prompt : Value ω} {chunk line : Bytes} {ls : List Bytes}
    {left : Bytes} {r : Loaded ω} {n : Nat} (hchunk : IsIncomplete I lua chunk)
    (h : Continues I lua prompt (chunk ++ text "\n" ++ line) ls left r n) :
    Continues I lua prompt chunk (line :: ls) left r (n + 1) := by
  have hjoined (ls : List Bytes) :
      joined chunk (line :: ls) = joined (chunk ++ text "\n" ++ line) ls := rfl
  cases h with
  | loaded more done =>
    rw [← hjoined] at done ⊢
    refine .loaded ?_ done
    intro i hi
    cases i with
    | zero => exact hchunk
    | succ i => exact more i (Nat.lt_of_succ_lt_succ hi)
  | unfinished more ended =>
    refine .unfinished ?_ ended
    intro i hi
    cases i with
    | zero => exact hchunk
    | succ i => exact more i (Nat.le_of_succ_le_succ hi)

theorem lines_of_fgets {s b s' : Bytes} (h : fgets LUA_MAXINPUT s = some (b, s')) (n : Nat) :
    lines (n + 1) s = chomp b :: lines n s' ∧ rest (n + 1) s = rest n s' := by
  simp [lines, rest, h]

/-- The first line and what is behind it, or the end of the input. -/
theorem ask_cases (firstline : Bool) (w : World σ) (prompt : Value ω) :
    (w.input = [] ∧ ask firstline w prompt = ⟨w.write [shown firstline prompt], prompt, none⟩) ∨
    ∃ line left, (∀ n, lines (n + 1) w.input = line :: lines n left ∧
        rest (n + 1) w.input = rest n left) ∧ left.length < w.input.length ∧
      ask firstline w prompt =
        ⟨⟨w.lua, left, w.written ++ [shown firstline prompt]⟩, prompt, some line⟩ := by
  have hlength := ask_length firstline w prompt
  unfold ask at hlength ⊢
  dsimp only [World.write] at hlength ⊢
  cases hf : fgets LUA_MAXINPUT w.input with
  | none =>
    refine Or.inl ⟨?_, rfl⟩
    unfold fgets at hf
    by_contra hne
    simp [hne] at hf
  | some r =>
    rw [hf] at hlength
    exact Or.inr ⟨chomp r.1, r.2, lines_of_fgets hf, hlength.2 _ rfl, rfl⟩

/-- The names of the prompts are looked up without a metamethod. -/
def PlainPrompts (I : Interpreter ω σ) (lua : σ) (prompt : Bool → Value ω) : Prop :=
  ∀ firstline w, w.lua = lua →
    I.getglobal (promptName firstline) w = some (w, .ok (prompt firstline))

theorem PlainPrompts.nextLine {prompt : Bool → Value ω} {w : World σ}
    (h : PlainPrompts I w.lua prompt) (firstline : Bool) :
    nextLine I firstline w = pure (ask firstline w (prompt firstline)) := by
  rw [ConsoleRepl.nextLine, h firstline w rfl]
  rfl

theorem statement_reads {prompt : Bool → Value ω} {fuel : Nat} {w : World σ}
    (hp : PlainPrompts I w.lua prompt) (hfuel : w.input.length < fuel) (chunk : Bytes) :
    ∃ k n r, (lines k w.input).length = k ∧
      statement I fuel chunk w = pure (⟨w.lua, rest k w.input,
        w.written ++ List.replicate n (shown false (prompt false))⟩, r) ∧
      Continues I w.lua (prompt false) chunk (lines k w.input) (rest k w.input) r n := by
  induction fuel generalizing chunk w with
  | zero => omega
  | succ fuel ih =>
    by_cases hinc : IsIncomplete I w.lua chunk
    · have hinc' := hinc
      rw [IsIncomplete] at hinc'
      rw [statement, if_pos hinc', hp.nextLine, pure_bind]
      cases ask_cases false w (prompt false) with
      | inl hnone =>
        obtain ⟨hnil, hask⟩ := hnone
        have hrest : rest 0 w.input = w.input := rfl
        rw [hask, hinc.1]
        refine ⟨0, 1, _, rfl, rfl, .unfinished ?_ (hrest.trans hnil)⟩
        intro i hi
        obtain rfl : i = 0 := Nat.le_zero.mp hi
        exact hinc
      | inr hsome =>
        obtain ⟨line, left, hlines, hlength, hask⟩ := hsome
        have ih := @ih ⟨w.lua, left, w.written ++ [shown false (prompt false)]⟩ hp
          (by dsimp only; omega) (chunk ++ text "\n" ++ line)
        obtain ⟨k, n, r, hk, hs, hcont⟩ := ih
        dsimp only at hk hs hcont
        rw [hask]
        refine ⟨k + 1, n + 1, r, ?_, ?_, ?_⟩
        · rw [(hlines k).1, List.length_cons, hk]
        · rw [(hlines k).2]
          simpa [List.replicate_succ] using hs
        · rw [(hlines k).1, (hlines k).2]
          exact hcont.cons hinc
    · have hinc' := hinc
      rw [IsIncomplete] at hinc'
      refine ⟨0, 0, _, rfl, ?_, .loaded (fun i hi => absurd hi (Nat.not_lt_zero i)) hinc⟩
      rw [statement, if_neg hinc']
      simp [joined, rest, lines]

/-- `loadline` reads the lines of one statement and leaves its function on the stack, alone. It is
the first line if this is an expression; otherwise the fewest lines that are no incomplete
statement any more. The message of a wrong statement is left in the place of the function, but
when the input ends within a statement it is the second prompt. A prompt is written for each line,
and one more when the input ends. -/
theorem loadline_reads_statement (I : Interpreter ω σ) (fuel : Nat) (L : State ω σ)
    {prompt : Bool → Value ω} (hp : PlainPrompts I L.world.lua prompt)
    (hfuel : L.world.input.length ≤ fuel) :
    (L.world.input = [] ∧ loadline I fuel L = pure (none, ⟨[(prompt true).converted],
      L.world.write [shown true (prompt true)], L.progname⟩)) ∨
    ∃ line ls w r n, lines (ls.length + 1) L.world.input = line :: ls ∧
      loadline I fuel L = pure (r.status, ⟨[r.value], w, L.progname⟩) ∧
      w.lua = L.world.lua ∧ w.input = rest (ls.length + 1) L.world.input ∧
      IsRead I L.world.lua (prompt false) (firstLine line) ls w.input r n ∧
      w.written = L.world.written ++
        shown true (prompt true) :: List.replicate n (shown false (prompt false)) := by
  have hload := loadline_eq (I := I) fuel L
  rw [readStatement, hp.nextLine, pure_bind] at hload
  cases ask_cases true L.world (prompt true) with
  | inl hnone =>
    obtain ⟨hnil, hask⟩ := hnone
    rw [hask] at hload
    exact Or.inl ⟨hnil, hload⟩
  | inr hsome =>
    obtain ⟨line, left, hlines, hlength, hask⟩ := hsome
    rw [hask] at hload
    dsimp only at hload
    refine Or.inr ?_
    by_cases hok : (I.load L.world.lua (asExpression (firstLine line)) (text "=stdin")).1 = .ok
    · rw [if_pos hok, hok] at hload
      exact ⟨line, [], _, _, 0, (hlines 0).1, hload, rfl, (hlines 0).2.symm,
        .expression hok rfl, rfl⟩
    · rw [if_neg hok] at hload
      have hreads := @statement_reads ω σ I prompt fuel
        ⟨L.world.lua, left, L.world.written ++ [shown true (prompt true)]⟩ hp
        (by dsimp only; omega) (firstLine line)
      obtain ⟨k, n, r, hk, hs, hcont⟩ := hreads
      dsimp only at hk hs hcont
      rw [hs] at hload
      refine ⟨line, lines k left, _, r, n, ?_, hload, rfl, ?_, .statement hok hcont, ?_⟩
      · rw [hk, (hlines k).1]
      · rw [hk, (hlines k).2]
      · rw [List.append_assoc]
        rfl

theorem loadline_reads_sample : ∃ line ls w r n,
    lines (ls.length + 1) (text "do\nend\n") = line :: ls ∧
    loadline sampleInterpreter 9 ⟨[.nil], ⟨(), text "do\nend\n", []⟩, none⟩ =
      pure (r.status, ⟨[r.value], w, none⟩) ∧
    IsRead sampleInterpreter () .nil (firstLine line) ls w.input r n ∧
    w.written = .stdout (text "> ") :: List.replicate n (.stdout (text ">> ")) := by
  have hplain : PlainPrompts sampleInterpreter () fun _ => .nil := by
    intro firstline w _
    cases firstline with
    | false => rfl
    | true => rfl
  cases loadline_reads_statement sampleInterpreter 9
      ⟨[.nil], ⟨(), text "do\nend\n", []⟩, none⟩ hplain (by decide) with
  | inl h => exact absurd h.1 (by decide)
  | inr h =>
    obtain ⟨line, ls, w, r, n, hlines, hload, _, _, hread, hwritten⟩ := h
    exact ⟨line, ls, w, r, n, hlines, hload, hread, hwritten⟩

/-! ### Errors that are reported -/

/- Lines that are read one after the other as the second prompt asks for them. -/
inductive LinesRead (I : Interpreter ω σ) : World σ → List Bytes → World σ → Prop
  | nil (w : World σ) : LinesRead I w [] w
  | cons {w w' : World σ} {a : Asked ω σ} {line : Bytes} {ls : List Bytes}
      (asked : nextLine I false w = pure a) (hline : a.line = some line)
      (h : LinesRead I a.world ls w') : LinesRead I w (line :: ls) w'

/-- The lines up to the end of the input are an incomplete statement, and the value of the second
prompt is left. -/
def Unfinished (I : Interpreter ω σ) (chunk : Bytes) (w w' : World σ) (v : Value ω) : Prop :=
  ∃ ls w₁ w₂ prompt, LinesRead I w ls w₁ ∧ IsIncomplete I w₁.lua (joined chunk ls) ∧
    I.getglobal (text "_PROMPT2") w₁ = some (w₂, .ok prompt) ∧
    w' = w₂.write [shown false prompt] ∧ w'.input = [] ∧ v = prompt.converted

theorem statement_message {fuel : Nat} {chunk : Bytes} {w w' : World σ} {r : Loaded ω}
    (h : statement I fuel chunk w = pure (w', r)) (hstatus : r.status ≠ some .ok) :
    (∃ msg, r.value = .string msg) ∨ Unfinished I chunk w w' r.value := by
  induction fuel generalizing chunk w with
  | zero => cases h
  | succ fuel ih =>
    unfold statement at h
    by_cases hinc : IsIncomplete I w.lua chunk
    · have hinc' := hinc
      rw [IsIncomplete] at hinc'
      simp only [if_pos hinc'] at h
      obtain ⟨a, ha, h⟩ := bind_eq_pure.mp h
      obtain ⟨⟨w₁, prompt⟩, hg, hask⟩ := map_eq_pure.mp ha
      cases ask_cases false w₁ prompt with
      | inl hnone =>
        obtain ⟨hnil, hnone⟩ := hnone
        obtain rfl := hask.symm.trans hnone
        obtain ⟨rfl, rfl⟩ := Prod.mk.inj (pure_inj.mp h)
        exact Or.inr ⟨[], w, w₁, prompt, .nil w, hinc, unprotected_eq_pure hg, rfl, hnil, rfl⟩
      | inr hsome =>
        obtain ⟨line, left, _, _, hsome⟩ := hsome
        obtain rfl := hask.symm.trans hsome
        refine (ih h).imp id ?_
        rintro ⟨ls, w₁, w₂, prompt, hls, hrest⟩
        exact ⟨line :: ls, w₁, w₂, prompt, .cons ha rfl hls, hrest⟩
    · have hinc' := hinc
      rw [IsIncomplete] at hinc'
      simp only [if_neg hinc'] at h
      obtain ⟨rfl, rfl⟩ := Prod.mk.inj (pure_inj.mp h)
      exact Or.inl (I.load_message _ _ _ _ _ rfl fun hok => hstatus (congrArg some hok))

theorem msghandler_string (I : Interpreter ω σ) (lua : σ) (v : Value ω) :
    ∃ msg, msghandler I lua v = .string msg := by
  unfold msghandler
  split
  · exact ⟨_, rfl⟩
  · split
    · exact ⟨_, rfl⟩
    · exact ⟨_, rfl⟩

/-- In the loop `report` is given a string, as it assumes, with one exception: when the lines that
are read to the end of the input are an incomplete statement, it is given what the second prompt
was looked up as. -/
theorem report_given_string (I : Interpreter ω σ) (fuel : Nat) (L L₁ : State ω σ) (status : Status)
    (hload : loadline I fuel L = pure (some status, L₁)) :
    (status ≠ .ok → (∃ msg, L₁.stack = [.string msg]) ∨
      ∃ a line v, nextLine I true L.world = pure a ∧ a.line = some line ∧
        Unfinished I (firstLine line) a.world L₁.world v ∧ L₁.stack = [v]) ∧
    (status = .ok → ∀ status' L₂, docall I 0 none L₁ = some (status', L₂) → status' ≠ .ok →
      ∃ msg, L₂.stack = [.string msg]) := by
  rw [loadline_eq] at hload
  obtain ⟨⟨w, r⟩, hr, hL⟩ := map_eq_pure.mp hload
  obtain ⟨hstatus, rfl⟩ := Prod.mk.inj hL
  refine ⟨fun hne => ?_, fun _ status' L₂ hcall hne => ?_⟩
  · obtain ⟨a, ha, hr⟩ := bind_eq_pure.mp hr
    cases hline : a.line with
    | none =>
      rw [hline] at hr
      obtain ⟨_, rfl⟩ := Prod.mk.inj (pure_inj.mp hr)
      cases hstatus
    | some line =>
      simp only [hline] at hr
      by_cases hok : (I.load a.world.lua (asExpression (firstLine line)) (text "=stdin")).1 = .ok
      · simp only [if_pos hok] at hr
        obtain ⟨_, rfl⟩ := Prod.mk.inj (pure_inj.mp hr)
        exact absurd ((Option.some.inj hstatus).symm.trans hok) hne
      · simp only [if_neg hok] at hr
        have hmessage := statement_message hr fun h => hne (Option.some.inj (hstatus.symm.trans h))
        cases hmessage with
        | inl hmsg =>
          obtain ⟨msg, hmsg⟩ := hmsg
          exact Or.inl ⟨msg, by rw [hmsg]⟩
        | inr hunfinished => exact Or.inr ⟨a, line, r.value, ha, hline, hunfinished, rfl⟩
  · have hdocall := docall_eq (I := I) none [] r.value [] w L.progname
    simp only [List.length_nil, List.nil_append] at hdocall
    rw [hdocall, Option.map_eq_some_iff] at hcall
    obtain ⟨⟨w', c⟩, hc, hreturned⟩ := hcall
    cases c with
    | ok results => exact absurd (congrArg Prod.fst hreturned).symm hne
    | error e =>
      obtain ⟨status, v⟩ := e
      simp only [returned, List.nil_append, Prod.mk.injEq] at hreturned
      obtain ⟨rfl, rfl⟩ := hreturned
      cases I.handled _ _ _ _ _ _ _ hc with
      | inl h =>
        obtain ⟨lua, e, rfl⟩ := h
        obtain ⟨msg, hmsg⟩ := msghandler_string I lua e
        exact ⟨msg, by rw [hmsg]⟩
      | inr h =>
        obtain ⟨msg, rfl⟩ := h
        exact ⟨msg, rfl⟩

/-- The input ends within a statement, and the second prompt is not set. -/
theorem report_given_string_sample : ∃ L, loadline sampleInterpreter 9
      ⟨[], ⟨(), text "do", []⟩, none⟩ = pure (some .errSyntax, L) ∧
    L.stack = [.nil] ∧ ∃ a line v,
      nextLine sampleInterpreter true ⟨(), text "do", []⟩ = pure a ∧ a.line = some line ∧
      Unfinished sampleInterpreter (firstLine line) a.world L.world v := by
  have hnil : ∃ L, loadline sampleInterpreter 9 ⟨[], ⟨(), text "do", []⟩, none⟩ =
      pure (some .errSyntax, L) ∧ L.stack = [.nil] := ⟨_, rfl, rfl⟩
  obtain ⟨L, hload, hstack⟩ := hnil
  cases (report_given_string sampleInterpreter 9 _ L _ hload).1 (by decide) with
  | inl h =>
    obtain ⟨msg, hmsg⟩ := h
    rw [hstack] at hmsg
    cases hmsg
  | inr h =>
    obtain ⟨a, line, v, ha, hline, hunfinished, _⟩ := h
    exact ⟨L, hload, hstack, a, line, v, ha, hline, hunfinished⟩

/-! ### Lines that were submitted -/

/-- A line that fits into the buffer with its line feed. -/
def Short (line : Bytes) : Prop := line.length < 511 ∧ 0 ∉ line ∧ 10 ∉ line

instance (line : Bytes) : Decidable (Short line) := inferInstanceAs (Decidable (_ ∧ _))

theorem takeLine_line {line : Bytes} (h : 10 ∉ line) (s : Bytes) {n : Nat}
    (hn : line.length < n) : takeLine n (line ++ 10 :: s) = (line ++ [10], s) := by
  induction line generalizing n with
  | nil =>
    obtain ⟨n, rfl⟩ : ∃ m, n = m + 1 := ⟨n - 1, by simp at hn; omega⟩
    rfl
  | cons c line ih =>
    obtain ⟨n, rfl⟩ : ∃ m, n = m + 1 := ⟨n - 1, by omega⟩
    simp only [List.mem_cons, not_or] at h
    have ih := ih h.2 (by simpa using hn)
    simp [takeLine, Ne.symm h.1, ih]

/-- A longer line fills the buffer. -/
theorem takeLine_long {line : Bytes} (h : 10 ∉ line) (s : Bytes) {n : Nat}
    (hn : n ≤ line.length) : takeLine n (line ++ s) = (line.take n, line.drop n ++ s) := by
  induction line generalizing n with
  | nil =>
    obtain rfl : n = 0 := by simpa using hn
    rfl
  | cons c line ih =>
    cases n with
    | zero => rfl
    | succ n =>
      simp only [List.mem_cons, not_or] at h
      have ih := ih h.2 (by simpa using hn)
      simp [takeLine, Ne.symm h.1, ih]

/-- Only at its end there is a line feed. -/
theorem takeLine_feed (n : Nat) (s : Bytes) : 10 ∉ (takeLine n s).1.dropLast := by
  induction n generalizing s with
  | zero => simp [takeLine]
  | succ n ih =>
    cases s with
    | nil => simp [takeLine]
    | cons c s =>
      by_cases hc : c = 10
      · simp [takeLine, hc]
      · simp only [takeLine, if_neg hc]
        cases h : (takeLine n s).1 with
        | nil => simp
        | cons d b =>
          have ih := ih s
          rw [h] at ih
          rw [List.dropLast_cons_of_ne_nil (List.cons_ne_nil d b), List.mem_cons, not_or]
          exact ⟨Ne.symm hc, ih⟩

theorem chomp_message {line : Bytes} (h : 0 ∉ line) : chomp (line ++ [10]) = line := by
  have hc : cString (line ++ [10]) = line ++ [10] := cString_eq_self (by simpa using h)
  rw [chomp, hc, List.getLast?_concat, if_pos rfl, List.dropLast_concat]

theorem chomp_plain {line : Bytes} (h : 0 ∉ line) (h10 : 10 ∉ line) : chomp line = line := by
  rw [chomp, cString_eq_self h, if_neg]
  intro hlast
  exact h10 (List.mem_of_getLast? hlast)

theorem chomp_feed {b : Bytes} (h : 10 ∉ b.dropLast) : 10 ∉ chomp b := by
  obtain ⟨t, ht⟩ : cString b <+: b := List.takeWhile_prefix _
  unfold chomp
  by_cases hnil : t = []
  · rw [hnil, List.append_nil] at ht
    rw [ht]
    by_cases hlast : b.getLast? = some 10
    · rwa [if_pos hlast]
    · rw [if_neg hlast]
      intro hmem
      obtain ⟨front, last, rfl⟩ := (List.eq_nil_or_concat' b).resolve_left (List.ne_nil_of_mem hmem)
      rw [List.dropLast_concat] at h
      cases List.mem_append.mp hmem with
      | inl hmem => exact h hmem
      | inr hmem =>
        rw [List.mem_singleton.mp hmem, List.getLast?_concat] at hlast
        exact hlast rfl
  · rw [← ht, List.dropLast_append_of_ne_nil hnil, List.mem_append, not_or] at h
    split
    · exact fun hmem => h.1 (List.dropLast_subset _ hmem)
    · exact h.1

/-- What is handed on of a line is the line, and what is read for it no more than it and its line
feed, just if it is short; one that fills the buffer leaves its line feed behind. -/
theorem fgets_message (line s : Bytes) :
    ∃ b rest, fgets LUA_MAXINPUT (message line ++ s) = some (b, rest) ∧
      (Short line → chomp b = line ∧ rest = s) ∧
      (¬ Short line → chomp b = line → rest = 10 :: s) := by
  have hsplit : message line ++ s = line ++ 10 :: s := by simp [message, text]
  have hne : message line ++ s ≠ [] := by simp [hsplit]
  have hmax : LUA_MAXINPUT - 1 = 511 := rfl
  refine ⟨_, _, if_neg hne, ?_, ?_⟩
  · rintro ⟨hlen, h0, h10⟩
    rw [hsplit, hmax, takeLine_line h10 s hlen]
    exact ⟨chomp_message h0, rfl⟩
  · intro hnot hchomp
    rw [hsplit, hmax] at hchomp ⊢
    have h0 : 0 ∉ line := hchomp ▸ chomp_no_zero _
    have h10 : 10 ∉ line := hchomp ▸ chomp_feed (takeLine_feed _ _)
    have hlen : 511 ≤ line.length := by
      by_contra hlt
      exact hnot ⟨by omega, h0, h10⟩
    rw [takeLine_long h10 (10 :: s) hlen] at hchomp ⊢
    have htake0 : 0 ∉ line.take 511 := fun h => h0 (List.mem_of_mem_take h)
    have htake10 : 10 ∉ line.take 511 := fun h => h10 (List.mem_of_mem_take h)
    have hwhole : line.take 511 = line := (chomp_plain htake0 htake10).symm.trans hchomp
    have hdrop : line.drop 511 = [] := by
      have happend := List.take_append_drop 511 line
      rw [hwhole] at happend
      exact List.self_eq_append_right.mp happend.symm
    rw [hdrop, List.nil_append]

/-- A line feed that was left behind is never made up for. -/
theorem lines_behind (ls : List Bytes) (part : Bytes)
    (h : lines ls.length (10 :: (ls.flatMap message ++ part)) = ls) :
    rest ls.length (10 :: (ls.flatMap message ++ part)) ≠ part := by
  induction ls with
  | nil => simp [rest]
  | cons line ls ih =>
    have hfgets : fgets LUA_MAXINPUT (10 :: ((line :: ls).flatMap message ++ part)) =
        some ([10], (line :: ls).flatMap message ++ part) := rfl
    obtain ⟨hl, hr⟩ := lines_of_fgets hfgets ls.length
    rw [List.length_cons, hl, List.cons.injEq] at h
    rw [List.length_cons, hr]
    have hempty : line = [] := by
      rw [← h.1]
      rfl
    subst hempty
    exact ih h.2

/-- The console reads submitted lines as they are, and leaves what comes after them, exactly if
all of them are short. -/
theorem lines_message_iff (ls : List Bytes) (part : Bytes) :
    lines ls.length (ls.flatMap message ++ part) = ls ∧
        rest ls.length (ls.flatMap message ++ part) = part ↔
      ∀ line ∈ ls, Short line := by
  induction ls with
  | nil => simp [lines, rest]
  | cons line ls ih =>
    obtain ⟨b, left, hfgets, hshort, hlong⟩ := fgets_message line (ls.flatMap message ++ part)
    rw [← List.append_assoc, ← List.flatMap_cons] at hfgets
    obtain ⟨hl, hr⟩ := lines_of_fgets hfgets ls.length
    rw [List.length_cons, hl, hr, List.forall_mem_cons, List.cons.injEq]
    by_cases hline : Short line
    · obtain ⟨hb, rfl⟩ := hshort hline
      rw [← ih]
      exact ⟨fun h => ⟨hline, h.1.2, h.2⟩, fun h => ⟨⟨hb, h.2.1⟩, h.2.2⟩⟩
    · refine iff_of_false ?_ fun h => hline h.1
      rintro ⟨⟨hb, hrest⟩, hpart⟩
      obtain rfl := hlong hline hb
      exact lines_behind ls part hrest hpart

/-- What the terminal hands on of its queue. Its mode, editing, echoes, signals and the like, is
about some characters other than the line feed, and about lines that are too long; what has none of
these it hands on as it is. -/
structure Mode where
  special : UInt8 → Bool
  limit : Nat
  handed : Bytes → Bytes
  unedited : ∀ ls part,
    (∀ line ∈ part :: ls, line.length ≤ limit ∧ ∀ c ∈ line, special c = false) →
    handed (ls.flatMap message ++ part) = ls.flatMap message ++ part

/-- A line that the terminal hands on as it is. -/
def Mode.Plain (m : Mode) (line : Bytes) : Prop :=
  line.length ≤ m.limit ∧ ∀ c ∈ line, m.special c = false

theorem Mode.Plain.of_part {m : Mode} {part line : Bytes} (h : m.Plain line)
    (hpart : part <+: line) : m.Plain part :=
  ⟨hpart.length_le.trans h.1, fun c hc => h.2 c (hpart.subset hc)⟩

/-- What has been sent of a message is a part of its line, unless it is the whole message. -/
theorem injected_part {t : Thread} (h : t.rest ≠ []) : t.injected <+: t.line := by
  obtain ⟨rest, last, hrest⟩ := (List.eq_nil_or_concat' t.rest).resolve_left h
  have hwhole := t.whole
  rw [hrest, ← List.append_assoc, message] at hwhole
  exact ⟨rest, (List.append_inj' hwhole rfl).1⟩

/- The characters that edit a line, end it or send a signal, as terminals have them at first. -/
def sampleMode : Mode where
  special c := c ∈ [3, 4, 8, 13, 17, 18, 19, 21, 22, 23, 26, 28, 127]
  limit := 4095
  handed q := q
  unedited _ _ _ := rfl

end OpcUaTestTool.ConsoleLines
