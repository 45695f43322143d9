import OpcUaTestTool.FileSystem
import OpcUaTestTool.JsonLibrary
import OpcUaTestTool.TestRunner
import OpcUaTestTool.Transition

/-! The configuration in its file: it is loaded when a process starts, and persisted by it. -/
namespace OpcUaTestTool.ConfigFile
open Numerals Directory FileSystem JsonValues JsonDump JsonSound JsonLibrary
open JsonText (utf8)
open TestRunner (getString_eq_some)
open Transition

structure Config where
  majorVersion : Int
  minorVersion : Int
  gitRepository : Bytes
  maxParallelJobs : Int
  deriving DecidableEq

/-- `to_json`, as the macro defines it. -/
def Config.toJson (c : Config) : Json :=
  .object (setMember (text "maxParallelJobs") (.integer c.maxParallelJobs)
    (setMember (text "gitRepository") (.string c.gitRepository)
      (setMember (text "minorVersion") (.integer c.minorVersion)
        (setMember (text "majorVersion") (.integer c.majorVersion) []))))

variable (L : Library)

/-- `from_json`; it throws where a member is missing or of another type. -/
def fromJson (j : Json) : Option Config := do
  let majorVersion ← L.getInt (← j.at (text "majorVersion"))
  let minorVersion ← L.getInt (← j.at (text "minorVersion"))
  let gitRepository ← (← j.at (text "gitRepository")).getString
  let maxParallelJobs ← L.getInt (← j.at (text "maxParallelJobs"))
  some ⟨majorVersion, minorVersion, gitRepository, maxParallelJobs⟩

/-- `ConfigPersistence::loadConfig`; a file that cannot be opened reads as no bytes. -/
def loadConfig (file : Option Bytes) : Option Config := (L.parse (file.getD [])).bind (fromJson L)

/-- What `ConfigPersistence::persist` leaves in the file. The strings of a configuration that was
loaded can be written. -/
def persist (c : Config) (file : Option Bytes) (w : Storing) : Option Bytes :=
  left (L.dump c.toJson) file w

/- The file, the configuration of the process that runs, and all that were loaded. -/
structure System where
  file : Option Bytes
  currentConfig : Option Config := none
  loaded : List Config := []

inductive Action where
  /-- The constructor; a process that gets an exception there has ended. -/
  | start
  | persist (w : Storing)
  | stop

def step (s : System) : Action → Option System
  | .start =>
    match s.currentConfig, loadConfig L s.file with
    | some _, _ => none
    | none, none => some s
    | none, some c => some { s with currentConfig := some c, loaded := s.loaded ++ [c] }
  | .persist w => s.currentConfig.map fun c => { s with file := ConfigFile.persist L c s.file w }
  | .stop => some { s with currentConfig := none }

/- All configurations are the one in the first file, and the file is that file or a piece of what
was persisted of it. -/
structure Sane (first : Option Bytes) (s : System) : Prop where
  file : s.file = first ∨
    ∃ c piece, loadConfig L first = some c ∧ s.file = some piece ∧ piece <+: L.dump c.toJson
  currentConfig : ∀ c, s.currentConfig = some c → loadConfig L first = some c
  loaded : ∀ c ∈ s.loaded, loadConfig L first = some c

variable {L} {first : Option Bytes}

/-! ### The text of a configuration -/

/-- The members of a configuration are values of their types. -/
structure Config.Fits (c : Config) : Prop where
  majorVersion : InInt c.majorVersion
  minorVersion : InInt c.minorVersion
  gitRepository : utf8 c.gitRepository = true
  maxParallelJobs : InInt c.maxParallelJobs

/-- What is loaded was converted to these types, and its string was in UTF-8. -/
theorem fits_of_loadConfig {file : Option Bytes} {c : Config} (h : loadConfig L file = some c) :
    c.Fits := by
  obtain ⟨j, hj, hc⟩ := Option.bind_eq_some_iff.mp h
  simp only [fromJson, bind, Option.bind_eq_some_iff, getString_eq_some, Option.some.injEq] at hc
  obtain ⟨_, _, majorVersion, hmajor, _, _, minorVersion, hminor, v, hv, repository, rfl, _, _,
    maxParallelJobs, hmax, rfl⟩ := hc
  refine ⟨L.getInt_fits hmajor, L.getInt_fits hminor, ?_, L.getInt_fits hmax⟩
  cases sound_at (L.parse_sound hj) hv with
  | string hs => exact hs

theorem Config.Fits.value {c : Config} (h : c.Fits) : L.Value c.toJson :=
  sound_setMember rfl (L.value_int h.maxParallelJobs) (sound_setMember rfl (.string h.gitRepository)
    (sound_setMember rfl (L.value_int h.minorVersion)
      (sound_setMember rfl (L.value_int h.majorVersion) sound_empty)))

theorem fromJson_toJson {c : Config} (h : c.Fits) : fromJson L c.toJson = some c := by
  have hat : c.toJson.at (text "majorVersion") = some (.integer c.majorVersion) ∧
      c.toJson.at (text "minorVersion") = some (.integer c.minorVersion) ∧
      c.toJson.at (text "gitRepository") = some (.string c.gitRepository) ∧
      c.toJson.at (text "maxParallelJobs") = some (.integer c.maxParallelJobs) :=
    ⟨rfl, rfl, rfl, rfl⟩
  simp only [fromJson, hat, bind, Option.bind_some, L.getInt_integer h.majorVersion,
    L.getInt_integer h.minorVersion, L.getInt_integer h.maxParallelJobs, Json.getString]

/-- A configuration that was persisted is loaded again, from its whole text. -/
theorem loadConfig_dump {c : Config} (h : c.Fits) :
    loadConfig L (some (L.dump c.toJson)) = some c := by
  rw [loadConfig, Option.getD_some, L.parse_dump h.value, Option.bind_some, fromJson_toJson h]

/-- Of a piece of the text nothing is loaded. -/
theorem loadConfig_torn {c : Config} (h : c.Fits) {piece : Bytes} (hp : piece <+: L.dump c.toJson)
    (hcut : piece ≠ L.dump c.toJson) : loadConfig L (some piece) = none := by
  have hwhole : Whole L (L.dump c.toJson) := whole_dump L h.value
  rw [loadConfig, Option.getD_some, hwhole.torn hp hcut, Option.bind_none]

/-! ### Runs -/

/-- Whatever is loaded is the first configuration. -/
theorem Sane.loads {s : System} (h : Sane L first s) {c : Config}
    (hc : loadConfig L s.file = some c) : loadConfig L first = some c := by
  cases h.file with
  | inl heq => rw [← heq, hc]
  | inr hpersisted =>
    obtain ⟨c', piece, hfirst, hfile, hp⟩ := hpersisted
    have hfits := fits_of_loadConfig hfirst
    rw [hfile] at hc
    by_cases hcut : piece = L.dump c'.toJson
    · rw [hcut, loadConfig_dump hfits] at hc
      rw [hfirst, hc]
    · rw [loadConfig_torn hfits hp hcut] at hc
      cases hc

theorem Sane.persist {s : System} (h : Sane L first s) {c : Config}
    (hc : s.currentConfig = some c) (w : Storing) :
    Sane L first { s with file := ConfigFile.persist L c s.file w } := by
  have hfirst := h.currentConfig c hc
  refine ⟨?_, h.currentConfig, h.loaded⟩
  cases w with
  | stored => exact Or.inr ⟨c, _, hfirst, rfl, List.prefix_rfl⟩
  | notOpened => exact h.file
  | cut n => exact Or.inr ⟨c, _, hfirst, rfl, List.take_prefix n _⟩

theorem Sane.step {s s' : System} {a : Action} (h : Sane L first s)
    (hs : ConfigFile.step L s a = some s') : Sane L first s' := by
  cases a with
  | persist w =>
    obtain ⟨c, hc, rfl⟩ := Option.map_eq_some_iff.mp hs
    exact h.persist hc w
  | stop =>
    obtain rfl := Option.some.inj hs
    exact ⟨h.file, by simp, h.loaded⟩
  | start =>
    cases hcurrent : s.currentConfig with
    | some c => simp [ConfigFile.step, hcurrent] at hs
    | none =>
      cases hload : loadConfig L s.file with
      | none =>
        simp only [ConfigFile.step, hcurrent, hload, Option.some.injEq] at hs
        exact hs ▸ h
      | some c =>
        simp only [ConfigFile.step, hcurrent, hload, Option.some.injEq] at hs
        subst hs
        have hfirst := h.loads hload
        refine ⟨h.file, fun c' hc' => ?_, fun c' hc' => ?_⟩
        · obtain rfl := Option.some.inj hc'
          exact hfirst
        · cases List.mem_append.mp hc' with
          | inl hold => exact h.loaded c' hold
          | inr hnew => exact List.mem_singleton.mp hnew ▸ hfirst

/-- However often processes load and persist the configuration, and wherever a write is cut, each
that is loaded is the one of the first file. What is persisted completely is loaded again; what is
not is refused, or it is the same. -/
theorem config_kept {as : List Action} {s : System}
    (hrun : run (step L) { file := first } as = some s) :
    (∀ c ∈ s.loaded, loadConfig L first = some c) ∧
    ∀ c, s.currentConfig = some c →
      loadConfig L (persist L c s.file .stored) = some c ∧
      ∀ w c', loadConfig L (persist L c s.file w) = some c' → c' = c := by
  have hstart : Sane L first { file := first } := ⟨Or.inl rfl, by simp, by simp⟩
  have hsane : Sane L first s := run_invariant (fun _ _ _ h hs => Sane.step h hs) hstart hrun
  refine ⟨hsane.loaded, fun c hc => ?_⟩
  have hfirst := hsane.currentConfig c hc
  refine ⟨loadConfig_dump (fits_of_loadConfig hfirst), ?_⟩
  intro w c' hc'
  have hfirst' := (hsane.persist hc w).loads hc'
  rw [hfirst, Option.some.injEq] at hfirst'
  exact hfirst'.symm

/- A file in another order of its members, with one that is not read. -/
def sampleFile : Bytes :=
  text "\x7b\"x\":true,\"majorVersion\":1,\"minorVersion\":2," ++
    text "\"gitRepository\":\"g\",\"maxParallelJobs\":4\x7d"

def restarted : List Action :=
  [.start, .persist .stored, .stop, .start, .persist (.cut 9), .stop, .start]

theorem config_kept_sample : ∃ s c, run (step sampleLibrary) { file := some sampleFile } restarted =
    some s ∧ s.loaded = [c, c] ∧ loadConfig sampleLibrary (some sampleFile) = some c := by
  have hrun : ((run (step sampleLibrary) { file := some sampleFile } restarted).map fun s =>
      s.loaded.length) = some 2 := by
    decide +kernel
  obtain ⟨s, hs, hlength⟩ := Option.map_eq_some_iff.mp hrun
  have hloaded := (config_kept hs).1
  match hall : s.loaded, hlength with
  | [c, c'], _ =>
    have hc := hloaded c (hall ▸ List.mem_cons_self)
    have hc' := hloaded c' (hall ▸ List.mem_cons_of_mem c List.mem_cons_self)
    obtain rfl := Option.some.inj (hc.symm.trans hc')
    exact ⟨s, c, hs, hall, hc⟩

end OpcUaTestTool.ConfigFile
