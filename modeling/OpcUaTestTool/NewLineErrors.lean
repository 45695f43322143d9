import OpcUaTestTool.Api
import OpcUaTestTool.ReplInput

/-! `ioctl` calls that fail while a line is put into the input queue of the terminal, in the server
of the REPL and in the test service. What the calls for one message return is the parameter
`ioctl`. -/
namespace OpcUaTestTool.NewLineErrors
open Numerals ReplInput Api

/- A call of `ioctl` with `TIOCSTI`: the character, and what the call returned. -/
structure Call where
  character : UInt8
  result : Int
  deriving DecidableEq

def Call.Failed (c : Call) : Prop := c.result ≠ 0

instance : DecidablePred Call.Failed := fun c => inferInstanceAs (Decidable (c.result ≠ 0))

/-- The characters that reached the input queue. -/
def injected (calls : List Call) : Bytes :=
  (calls.filter fun c => decide ¬ c.Failed).map Call.character

variable (ioctl : Nat → Int)

/-- The loop over a message, from the `n`-th call on. After a call that failed only `onError` is
done, and the loop goes on. -/
def inject {σ : Type} (onError : σ → σ) : Nat → Bytes → σ → List Call × σ
  | _, [], s => ([], s)
  | n, c :: rest, s =>
    let (calls, s') := inject onError (n + 1) rest (if ioctl n ≠ 0 then onError s else s)
    (⟨c, ioctl n⟩ :: calls, s')

/- How a request was handled: what the callback returned and left in the response, and its calls
of `ioctl`. -/
structure Handled where
  returned : Bool
  resp : ResponseVariant
  calls : List Call

/-- `apiCallback` in the server of the REPL. -/
def ReplServer.apiCallback (resp : ResponseVariant) : RequestVariant → Handled
  | .newLineReplRequest content =>
    let (calls, _) := inject ioctl (fun _ => .response false) 0 (message content) resp
    -- behind the loop, whatever it has left in the response
    ⟨true, .response true, calls⟩
  | _ => ⟨true, .response false, []⟩

/-- `Repl::newLine` -/
def Repl.newLine (line : Bytes) : List Call :=
  (inject ioctl (fun _ => ()) 0 (message line) ()).1

/-- `TestService::newLineRepl` -/
def TestService.newLineRepl (content : Bytes) : ResponseVariant × List Call :=
  (.response true, Repl.newLine ioctl content)

/-- The response is ok exactly if the whole message was injected, and nothing is injected any more
once a call has failed. -/
structure Reported (line : Bytes) (resp : ResponseVariant) (calls : List Call) : Prop where
  ok : resp = .response true ↔ injected calls = message line
  stopped : calls.Pairwise fun c d => c.Failed → d.Failed
  beginning : injected calls <+: message line

/-- Each character is tried once, in order. -/
theorem inject_characters {σ : Type} (onError : σ → σ) (n : Nat) (msg : Bytes) (s : σ) :
    (inject ioctl onError n msg s).1.map Call.character = msg := by
  induction msg generalizing n s with
  | nil => rfl
  | cons c rest ih => simp [inject, ih]

theorem inject_failed {σ : Type} (onError : σ → σ) (n : Nat) (msg : Bytes) (s : σ) :
    (∀ c ∈ (inject ioctl onError n msg s).1, ¬ c.Failed) ↔
      ∀ i < msg.length, ioctl (n + i) = 0 := by
  induction msg generalizing n s with
  | nil => simp [inject]
  | cons c rest ih =>
    have hshift : (∀ i < rest.length, ioctl (n + 1 + i) = 0) ↔
        ∀ i < rest.length, ioctl (n + (i + 1)) = 0 := by
      simp only [Nat.add_assoc, Nat.add_comm 1]
    simp only [inject, List.forall_mem_cons, ih, hshift, List.length_cons]
    constructor
    · rintro ⟨hfirst, hrest⟩ i hi
      cases i with
      | zero => simpa [Call.Failed] using hfirst
      | succ i => exact hrest i (by omega)
    · intro h
      refine ⟨?_, fun i hi => h (i + 1) (by omega)⟩
      simpa [Call.Failed] using h 0 (by omega)

/-- Whatever fails, the terminal gets characters of the message in their order. -/
theorem injected_sublist (line : Bytes) :
    (injected (Repl.newLine ioctl line)).Sublist (message line) := by
  have hcharacters := inject_characters ioctl (fun _ => ()) 0 (message line) ()
  have hsub : (injected (Repl.newLine ioctl line)).Sublist
      ((Repl.newLine ioctl line).map Call.character) := List.filter_sublist.map _
  refine hsub.trans ?_
  rw [Repl.newLine, hcharacters]

theorem injected_eq_iff (calls : List Call) :
    injected calls = calls.map Call.character ↔ ∀ c ∈ calls, ¬ c.Failed := by
  constructor
  · intro h
    have hlength := congrArg List.length h
    simp only [injected, List.length_map, List.length_filter_eq_length_iff] at hlength
    simpa using hlength
  · intro h
    rw [injected, List.filter_eq_self.mpr (by simpa using h)]

variable {ioctl}

/-- A loop that answers ok in any case reports right exactly if no call fails. -/
theorem reported_iff {σ : Type} (onError : σ → σ) (line : Bytes) (s : σ) :
    Reported line (.response true) (inject ioctl onError 0 (message line) s).1 ↔
      ∀ n < (message line).length, ioctl n = 0 := by
  have hcharacters := inject_characters ioctl onError 0 (message line) s
  have hfailed := inject_failed ioctl onError 0 (message line) s
  simp only [Nat.zero_add] at hfailed
  generalize (inject ioctl onError 0 (message line) s).1 = calls at hcharacters hfailed
  rw [← hfailed, ← injected_eq_iff, hcharacters]
  constructor
  · intro h
    exact h.ok.mp rfl
  · intro hall
    have hnone : ∀ c ∈ calls, ¬ c.Failed := by
      rw [← injected_eq_iff, hcharacters, hall]
    refine ⟨iff_of_true rfl hall, ?_, ?_⟩
    · exact List.pairwise_of_forall_mem_list fun c hc d _ hf => absurd hf (hnone c hc)
    · rw [hall]

/-- The test service answers as if all characters were injected; its terminal was given what
`newLine` has injected if that is so. -/
theorem apiCallback_newLine (cwd : FileSystem.Path) (s : Service) (env : Env) (line : Bytes) :
    (apiCallback cwd s env (.newLineReplRequest line)).1 =
        .ok (TestService.newLineRepl ioctl line).1 ∧
      ((∀ n < (message line).length, ioctl n = 0) →
        (apiCallback cwd s env (.newLineReplRequest line)).2.input =
          s.input ++ injected (TestService.newLineRepl ioctl line).2) := by
  refine ⟨rfl, ?_⟩
  intro h
  have hall := ((reported_iff (fun _ => ()) line ()).mpr h).ok.mp rfl
  rw [TestService.newLineRepl, Repl.newLine, hall]
  simp [apiCallback, message]

/-- In both programs the answer to a line and what is injected agree exactly if no call for a
character of the message fails. -/
theorem newLine_reported_iff (ioctl : Nat → Int) (line : Bytes) (resp : ResponseVariant) :
    (Reported line (ReplServer.apiCallback ioctl resp (.newLineReplRequest line)).resp
        (ReplServer.apiCallback ioctl resp (.newLineReplRequest line)).calls ↔
      ∀ n < (message line).length, ioctl n = 0) ∧
    (Reported line (TestService.newLineRepl ioctl line).1
        (TestService.newLineRepl ioctl line).2 ↔
      ∀ n < (message line).length, ioctl n = 0) :=
  ⟨reported_iff _ line resp, reported_iff _ line ()⟩

/- Of the calls for the line `ab` the second one fails. -/
def failingSecond (n : Nat) : Int := if n = 1 then -1 else 0

theorem character_missing :
    (ReplServer.apiCallback failingSecond (.response false)
        (.newLineReplRequest (text "ab"))).resp = .response true ∧
    injected (ReplServer.apiCallback failingSecond (.response false)
        (.newLineReplRequest (text "ab"))).calls = text "a\n" ∧
    ¬ Reported (text "ab")
      (ReplServer.apiCallback failingSecond (.response false)
        (.newLineReplRequest (text "ab"))).resp
      (ReplServer.apiCallback failingSecond (.response false)
        (.newLineReplRequest (text "ab"))).calls ∧
    (TestService.newLineRepl failingSecond (text "ab")).1 = .response true ∧
    injected (TestService.newLineRepl failingSecond (text "ab")).2 = text "a\n" ∧
    ¬ Reported (text "ab") (TestService.newLineRepl failingSecond (text "ab")).1
      (TestService.newLineRepl failingSecond (text "ab")).2 := by
  have hinjected : injected (Repl.newLine failingSecond (text "ab")) ≠ message (text "ab") := by
    decide
  refine ⟨rfl, by decide, ?_, rfl, by decide, ?_⟩
  · intro h
    have hcalls : (ReplServer.apiCallback failingSecond (.response false)
        (.newLineReplRequest (text "ab"))).calls = Repl.newLine failingSecond (text "ab") := rfl
    exact hinjected (hcalls ▸ h.ok.mp rfl)
  · intro h
    exact hinjected (h.ok.mp rfl)

end OpcUaTestTool.NewLineErrors
