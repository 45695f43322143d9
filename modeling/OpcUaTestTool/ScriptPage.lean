import OpcUaTestTool.Requests
import OpcUaTestTool.Transition

/-! The script page: the script that is selected, the text in the editor, and what is saved. -/
namespace OpcUaTestTool.ScriptPage
open FiniteMap Requests Transition

structure Script where
  name : String
  deriving DecidableEq, Repr

/- What the editor has held since a response arrived: the text returned for a script, and the
texts the user made of it. -/
structure Session where
  script : Script
  returned : String
  edits : List String := []

def Session.Holds (x : Session) (c : String) : Prop := c = x.returned ∨ c ∈ x.edits

/- The sessions, the latest first, and the updates sent are not fields of the component: they are
kept for the statements below. -/
structure ScriptComponent where
  selectedScript : Option Script := none
  content : Option String := none
  getScriptContent : Channel Script := {}
  sessions : List Session := []
  updates : List (Script × String) := []

inductive Action where
  | onSelect (script : Script)
  | response (n : Nat) (text : String)
  | edit (text : String)
  | save

/-- The editor and the button are there if a script is selected and the content is not empty. -/
def ScriptComponent.shown (s : ScriptComponent) : Option (Script × String) :=
  match s.selectedScript, s.content with
  | some script, some c => if c = "" then none else some (script, c)
  | _, _ => none

def edited (text : String) : List Session → List Session
  | [] => []
  | x :: rest => { x with edits := x.edits ++ [text] } :: rest

def step (s : ScriptComponent) : Action → Option ScriptComponent
  | .onSelect script =>
    some { s with
      selectedScript := some script
      getScriptContent := s.getScriptContent.issue script }
  | .response n text =>
    (s.getScriptContent.inFlight.lookup n).map fun script =>
      { s with
        content := some text
        getScriptContent := s.getScriptContent.finish n
        sessions := ⟨script, text, []⟩ :: s.sessions }
  | .edit text =>
    s.shown.map fun _ => { s with content := some text, sessions := edited text s.sessions }
  | .save => s.shown.map fun u => { s with updates := s.updates ++ [u] }

def init : ScriptComponent := {}

/-- What was returned for a script, or what the user made of it. -/
def BasedOn (sessions : List Session) (script : Script) (c : String) : Prop :=
  ∃ x ∈ sessions, x.script = script ∧ x.Holds c

def SavesOwn (s : ScriptComponent) : Prop := ∀ u ∈ s.updates, BasedOn s.sessions u.1 u.2

/-- On a click on Save the last response was for the selected script, or the editor held the same
text after an earlier response for it. -/
def LoadedLast (s : ScriptComponent) : Action → Prop
  | .save => ∀ u, s.shown = some u → ∀ last rest, s.sessions = last :: rest →
      last.script = u.1 ∨ BasedOn rest u.1 u.2
  | _ => True

/- The editor holds a text of the latest session. -/
def Sane (s : ScriptComponent) : Prop :=
  ∀ c, s.content = some c → ∃ last rest, s.sessions = last :: rest ∧ last.Holds c

theorem basedOn_cons (x : Session) (rest : List Session) (script : Script) (c : String) :
    BasedOn (x :: rest) script c ↔ (x.script = script ∧ x.Holds c) ∨ BasedOn rest script c := by
  simp [BasedOn]

theorem Session.Holds.edit {x : Session} {c : String} (h : x.Holds c) (text : String) :
    Session.Holds { x with edits := x.edits ++ [text] } c := by
  cases h with
  | inl h => exact Or.inl h
  | inr h => exact Or.inr (List.mem_append_left _ h)

theorem BasedOn.edited {sessions : List Session} {script : Script} {c : String}
    (h : BasedOn sessions script c) (text : String) :
    BasedOn (edited text sessions) script c := by
  cases sessions with
  | nil => exact h
  | cons x rest =>
    rw [basedOn_cons] at h
    rw [ScriptPage.edited, basedOn_cons]
    exact Or.imp_left (fun hx => ⟨hx.1, hx.2.edit text⟩) h

theorem shown_content {s : ScriptComponent} {u : Script × String} (h : s.shown = some u) :
    s.selectedScript = some u.1 ∧ s.content = some u.2 := by
  unfold ScriptComponent.shown at h
  split at h
  · split at h
    · cases h
    · cases h
      exact ⟨by assumption, by assumption⟩
  · cases h

theorem step_response {s t : ScriptComponent} {n : Nat} {text : String}
    (h : step s (.response n text) = some t) :
    ∃ script, s.getScriptContent.inFlight.lookup n = some script ∧ t = { s with
      content := some text
      getScriptContent := s.getScriptContent.finish n
      sessions := ⟨script, text, []⟩ :: s.sessions } := by
  simp only [step, Option.map_eq_some_iff] at h
  obtain ⟨script, hl, rfl⟩ := h
  exact ⟨script, hl, rfl⟩

theorem step_edit {s t : ScriptComponent} {text : String} (h : step s (.edit text) = some t) :
    ∃ u, s.shown = some u ∧
      t = { s with content := some text, sessions := edited text s.sessions } := by
  simp only [step, Option.map_eq_some_iff] at h
  obtain ⟨u, hu, rfl⟩ := h
  exact ⟨u, hu, rfl⟩

theorem step_save {s t : ScriptComponent} (h : step s .save = some t) :
    ∃ u, s.shown = some u ∧ t = { s with updates := s.updates ++ [u] } := by
  simp only [step, Option.map_eq_some_iff] at h
  obtain ⟨u, hu, rfl⟩ := h
  exact ⟨u, hu, rfl⟩

theorem sane_step {s t : ScriptComponent} {a : Action} (hs : Sane s) (h : step s a = some t) :
    Sane t := by
  intro c hc
  cases a with
  | onSelect script =>
    cases h
    exact hs c hc
  | response n text =>
    obtain ⟨script, _, rfl⟩ := step_response h
    cases hc
    exact ⟨_, _, rfl, Or.inl rfl⟩
  | edit text =>
    obtain ⟨u, hu, rfl⟩ := step_edit h
    obtain ⟨last, rest, hl, _⟩ := hs u.2 (shown_content hu).2
    cases hc
    refine ⟨{ last with edits := last.edits ++ [c] }, rest, ?_, Or.inr ?_⟩
    · simp [hl, edited]
    · simp
  | save =>
    obtain ⟨u, _, rfl⟩ := step_save h
    exact hs c hc

/-- What is saved is the content of the selected script exactly if its response was the last. -/
theorem basedOn_shown {s : ScriptComponent} (hs : Sane s) {u : Script × String}
    (hu : s.shown = some u) : BasedOn s.sessions u.1 u.2 ↔ LoadedLast s .save := by
  obtain ⟨last, rest, hl, hheld⟩ := hs u.2 (shown_content hu).2
  rw [hl, basedOn_cons, and_iff_left hheld]
  constructor
  · intro h u' hu' last' rest' hl'
    obtain rfl : u = u' := Option.some.inj (hu.symm.trans hu')
    obtain ⟨rfl, rfl⟩ := List.cons.inj (hl.symm.trans hl')
    exact h
  · intro h
    exact h u hu last rest hl

theorem savesOwn_step {s t : ScriptComponent} {a : Action} (hs : Sane s) (hown : SavesOwn s)
    (h : step s a = some t) : SavesOwn t ↔ LoadedLast s a := by
  cases a with
  | onSelect script =>
    cases h
    exact iff_of_true hown trivial
  | response n text =>
    obtain ⟨script, _, rfl⟩ := step_response h
    refine iff_of_true ?_ trivial
    intro u hu
    exact (basedOn_cons _ _ _ _).mpr (Or.inr (hown u hu))
  | edit text =>
    obtain ⟨_, _, rfl⟩ := step_edit h
    refine iff_of_true ?_ trivial
    intro u hu
    exact (hown u hu).edited text
  | save =>
    obtain ⟨u, hu, rfl⟩ := step_save h
    rw [← basedOn_shown hs hu]
    constructor
    · intro ht
      exact ht u (by simp)
    · intro hb v hv
      cases List.mem_append.mp hv with
      | inl hv => exact hown v hv
      | inr hv =>
        obtain rfl := List.mem_singleton.mp hv
        exact hb

theorem sane_init : Sane init := by
  intro c hc
  cases hc

/-- Every update carries a text of its own script in exactly the runs in which Save is clicked
only after the response for the selected script was the last to arrive, or while the editor holds
a text it held for that script before. -/
theorem saves_own_iff (as : List Action) (s : ScriptComponent) (hrun : run step init as = some s) :
    Along step SavesOwn init as ↔ Meets step LoadedLast init as := by
  have hsane : ∀ s a t, Sane s → step s a = some t → Sane t := fun _ _ _ hi h => sane_step hi h
  have h0 : SavesOwn init := by
    intro u hu
    cases hu
  have hkeep : ∀ s a t, Sane s → SavesOwn s → LoadedLast s a → step s a = some t → SavesOwn t :=
    fun _ _ _ hi hs hc h => (savesOwn_step hi hs h).mpr hc
  have hcond : ∀ s a t, Sane s → SavesOwn s → step s a = some t → SavesOwn t → LoadedLast s a :=
    fun _ _ _ hi hs h ht => (savesOwn_step hi hs h).mp ht
  exact along_iff_meets hsane hkeep hcond sane_init h0 hrun

def scriptA : Script := ⟨"a.lua"⟩

def scriptB : Script := ⟨"b.lua"⟩

/- The responses overtake one another; the text of `a.lua` is edited and saved while it is
selected. -/
def sampleRun : List Action :=
  [.onSelect scriptA, .onSelect scriptB, .onSelect scriptA, .response 2 "print(1)",
    .edit "print(2)", .response 1 "", .response 0 "print(1)", .edit "print(3)", .save]

theorem saves_own_sample : ∃ s, run step init sampleRun = some s ∧
    s.updates = [(scriptA, "print(3)")] ∧
    (Along step SavesOwn init sampleRun ↔ Meets step LoadedLast init sampleRun) :=
  ⟨_, rfl, rfl, saves_own_iff sampleRun _ rfl⟩

/-- A script that is selected and saved before its text has come gets the text of the other. -/
theorem other_text_saved : ∃ s,
    run step init [.onSelect scriptA, .response 0 "print(1)", .onSelect scriptB, .save] = some s ∧
    s.updates = [(scriptB, "print(1)")] ∧ ¬ SavesOwn s := by
  refine ⟨_, rfl, rfl, ?_⟩
  intro h
  obtain ⟨x, hx, hscript, _⟩ := h (scriptB, "print(1)") (by decide)
  obtain rfl := List.mem_singleton.mp hx
  exact absurd hscript (by decide)

end OpcUaTestTool.ScriptPage
