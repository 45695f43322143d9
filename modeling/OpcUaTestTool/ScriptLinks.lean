import OpcUaTestTool.ScriptPaths
import OpcUaTestTool.SymbolicLinks

/-! Script names in a store with symbolic links, which a clone of a repository may bring. The
handlers of a script and the test runner open the path of the script directory with the name put
behind it. -/
namespace OpcUaTestTool.ScriptLinks
open FiniteMap Numerals Directory Store TestRunner SymbolicLinks
open FileSystem (Path Place Opened cString names lexical placeAt walk)
open ScriptPaths (scriptPath jobDirs jobDirs_apart Layout layout_construct below_root sampleDisk)

/-- `DataBase::getScript` -/
def getScript (db : DataBase) (t : LinkedDisk) (cwd : Path) (name : Bytes) : Bytes :=
  match openRead t cwd (scriptPath db.m_scriptDir name) with
  | .failed => text "job not found"
  | .directory => []
  | .regular _ content => content

/-- `DataBase::updateScript` -/
def updateScript (db : DataBase) (t : LinkedDisk) (cwd : Path) (name content : Bytes)
    (w : Storing) :
    LinkedDisk :=
  write t cwd (scriptPath db.m_scriptDir name) content w

/-- The file `Runtime::eval` gives to the Lua interpreter. -/
def scriptFile (t : LinkedDisk) (cwd : Path) (job : Job) : Opened :=
  openRead t cwd (scriptPath job.m_scriptDir job.m_script)

theorem getScript_of_noLinks (db : DataBase) (fs : FileSystem.Disk) (cwd : Path) (name : Bytes) :
    getScript db ⟨fs, ∅⟩ cwd name = ScriptPaths.getScript db fs cwd name := by
  cases hopen : FileSystem.openRead fs cwd (scriptPath db.m_scriptDir name) with
  | failed => simp only [getScript, openRead_of_noLinks, ScriptPaths.getScript, hopen]
  | directory => simp only [getScript, openRead_of_noLinks, ScriptPaths.getScript, hopen]
  | regular q content => simp only [getScript, openRead_of_noLinks, ScriptPaths.getScript, hopen]

theorem updateScript_of_noLinks (db : DataBase) (fs : FileSystem.Disk) (cwd : Path)
    (name content : Bytes) (w : Storing) :
    updateScript db ⟨fs, ∅⟩ cwd name content w =
      ⟨ScriptPaths.updateScript db fs cwd name content w, ∅⟩ :=
  write_of_noLinks cwd _ content w

/-- In or below the script directory. -/
def InScripts (db : DataBase) (t : LinkedDisk) (cwd : Path) (q : Place) : Prop :=
  ∃ p, directory t cwd db.m_scriptDir = some p ∧ p <+: q.dir

/- What a name may do: an update changes at most one file, in the script directory, and none of
the jobs; only files of the script directory are read and evaluated. -/
structure Confined (db : DataBase) (t : LinkedDisk) (cwd : Path) (name : Bytes) : Prop where
  update : ∀ content w, ∃ q, ∀ r, file (updateScript db t cwd name content w) r ≠ file t r →
    r = q ∧ InScripts db t cwd r
  jobs : ∀ content w, ∀ d ∈ jobDirs db, ∀ p, directory t cwd d = some p → ∀ n,
    file (updateScript db t cwd name content w) ⟨p, n⟩ = file t ⟨p, n⟩
  get : ∀ q content, openRead t cwd (scriptPath db.m_scriptDir name) = .regular q content →
    InScripts db t cwd q
  eval : ∀ job : Job, job.m_scriptDir = db.m_scriptDir → job.m_script = name → ∀ q content,
    scriptFile t cwd job = .regular q content → InScripts db t cwd q

/-- Going on from a directory without looking at the files, a way ends in the script directory `p`
or below it, and in no directory of the jobs. -/
structure StaysInside (db : DataBase) (t : LinkedDisk) (cwd p : Path) (w : Way) : Prop where
  inside : p <+: lexical w.dir w.rest.dropLast
  apart : ∀ d ∈ jobDirs db, directory t cwd d ≠ some (lexical w.dir w.rest.dropLast)

/-- The name, with the links on its way replaced, stays in the script directory, or nothing can be
opened under it. -/
def Harmless (db : DataBase) (t : LinkedDisk) (cwd : Path) (name : Bytes) : Prop :=
  ∀ left p, arrive t cwd db.m_scriptDir = some (left, p) →
    ∀ w, expand t left p (names (cString name)) = some w →
      StaysInside db t cwd p w ∨ placeAt t.disk w.dir w.rest = none

variable {db : DataBase} {root : Bytes} {t : LinkedDisk} {cwd : Path} {name : Bytes}

theorem place_scriptPath (hl : Layout db root) (hroot : 0 ∉ root) (t : LinkedDisk) (cwd : Path)
    (name : Bytes) : place t cwd (scriptPath db.m_scriptDir name) =
      (arrive t cwd db.m_scriptDir).bind fun a =>
        (expand t a.1 a.2 (names (cString name))).bind fun w => placeAt t.disk w.dir w.rest := by
  have hbelow : 0 ∉ db.m_scriptDir ∧ db.m_scriptDir ≠ [] := by
    rw [hl.scripts]
    exact below_root hroot (by decide) (by decide)
  have hpath : scriptPath db.m_scriptDir name = db.m_scriptDir ++ 47 :: name := by
    rw [scriptPath, List.append_assoc]
    rfl
  rw [hpath, place_append hbelow.2 hbelow.1]

/-- What a harmless name opens lies in the script directory and in no directory of the jobs. -/
theorem Harmless.opened (hl : Layout db root) (hroot : 0 ∉ root) (h : Harmless db t cwd name)
    {q : Place} (hq : place t cwd (scriptPath db.m_scriptDir name) = some q) :
    InScripts db t cwd q ∧ ∀ d ∈ jobDirs db, directory t cwd d ≠ some q.dir := by
  rw [place_scriptPath hl hroot] at hq
  obtain ⟨⟨left, p⟩, hp, hq⟩ := Option.bind_eq_some_iff.mp hq
  obtain ⟨w, hw, hq⟩ := Option.bind_eq_some_iff.mp hq
  cases h left p hp w hw with
  | inl hin =>
    rw [(FileSystem.placeAt_eq_some hq).1]
    refine ⟨⟨p, by rw [directory, hp, Option.map_some], ?_⟩, hin.apart⟩
    rw [(FileSystem.placeAt_eq_some hq).1]
    exact hin.inside
  | inr hnone =>
    rw [hq] at hnone
    cases hnone

theorem eq_of_updated {content : Bytes} {w : Storing} {q r : Place}
    (hq : place t cwd (scriptPath db.m_scriptDir name) = some q)
    (hr : file (updateScript db t cwd name content w) r ≠ file t r) : r = q := by
  by_contra hne
  exact hr (file_write_ne hq hne content w)

theorem not_updated_of_place_eq_none
    (hq : place t cwd (scriptPath db.m_scriptDir name) = none) (content : Bytes) (w : Storing) :
    updateScript db t cwd name content w = t := by
  rw [updateScript, write_of_place_eq_none hq]

theorem Harmless.confined (hl : Layout db root) (hroot : 0 ∉ root)
    (h : Harmless db t cwd name) : Confined db t cwd name := by
  have hread : ∀ q content, openRead t cwd (scriptPath db.m_scriptDir name) =
      .regular q content → InScripts db t cwd q := by
    intro q content hq
    exact (h.opened hl hroot (openRead_eq_regular hq)).1
  refine ⟨?_, ?_, hread, ?_⟩
  · intro content w
    cases hq : place t cwd (scriptPath db.m_scriptDir name) with
    | none =>
      refine ⟨⟨[], []⟩, ?_⟩
      intro r hr
      rw [not_updated_of_place_eq_none hq] at hr
      exact absurd rfl hr
    | some q =>
      refine ⟨q, ?_⟩
      intro r hr
      have hrq := eq_of_updated hq hr
      exact ⟨hrq, hrq ▸ (h.opened hl hroot hq).1⟩
  · intro content w d hd p hp n
    by_contra hr
    cases hq : place t cwd (scriptPath db.m_scriptDir name) with
    | none =>
      rw [not_updated_of_place_eq_none hq] at hr
      exact hr rfl
    | some q =>
      have hapart := (h.opened hl hroot hq).2 d hd
      rw [← eq_of_updated hq hr] at hapart
      exact hapart hp
  · intro job hdir hname q content hq
    rw [scriptFile, hdir, hname] at hq
    exact hread q content hq

/-- Where a name opens a file, an update shows whether the file is in the script directory. -/
theorem Confined.harmless (hl : Layout db root) (hroot : 0 ∉ root)
    (h : Confined db t cwd name) : Harmless db t cwd name := by
  intro left p hp w hw
  cases hq : placeAt t.disk w.dir w.rest with
  | none => exact Or.inr rfl
  | some q =>
    have hplace : place t cwd (scriptPath db.m_scriptDir name) = some q := by
      rw [place_scriptPath hl hroot, hp, Option.bind_some, hw]
      exact hq
    -- a content that is not there yet
    obtain ⟨content, hcontent⟩ : ∃ content, some content ≠ file t q := by
      cases file t q with
      | none => exact ⟨[], by simp⟩
      | some old => exact ⟨old ++ [0], by simp⟩
    have hchanged : file (updateScript db t cwd name content .stored) q ≠ file t q := by
      rw [updateScript, file_write_stored hplace]
      exact hcontent
    have hdir := (FileSystem.placeAt_eq_some hq).1
    refine Or.inl ⟨?_, fun d hd hjobs => ?_⟩
    · obtain ⟨r, hr⟩ := h.update content .stored
      obtain ⟨-, s, hs, hin⟩ := hr q hchanged
      rw [directory, hp, Option.map_some, Option.some.injEq] at hs
      subst hs
      exact hdir ▸ hin
    · rw [← hdir] at hjobs
      exact hchanged (h.jobs content .stored d hd q.dir hjobs q.name)

/-- In every state, a script name is confined to the script directory exactly if neither its `..`
nor the links on its way lead out of it, or if nothing can be opened under it. -/
theorem scripts_confined_iff (db : DataBase) (root : Bytes) (hl : Layout db root)
    (hroot : 0 ∉ root) (t : LinkedDisk) (cwd : Path) (name : Bytes) :
    Confined db t cwd name ↔ Harmless db t cwd name :=
  ⟨Confined.harmless hl hroot, Harmless.confined hl hroot⟩

/-- Without links, it is enough to look at the name. -/
theorem harmless_of_noLinks (hl : Layout db root) (hroot : 0 ∉ root) {fs : FileSystem.Disk} :
    Harmless db ⟨fs, ∅⟩ cwd name ↔ ScriptPaths.Harmless db fs cwd name := by
  have hexpand (left : Nat) (p : Path) :
      expand ⟨fs, ∅⟩ left p (names (cString name)) = some ⟨left, p, names (cString name)⟩ :=
    expand_of_none left (nextLink_of_noLinks p _)
  have harrive : arrive ⟨fs, ∅⟩ cwd db.m_scriptDir =
      (FileSystem.directory fs cwd db.m_scriptDir).map fun p => (maxLinks, p) := by
    rw [arrive, way_of_noLinks]
    rfl
  constructor
  · intro h p hp
    have hinside := h maxLinks p (by rw [harrive, hp, Option.map_some]) _ (hexpand _ _)
    exact hinside.imp StaysInside.inside fun hnone => hnone
  · intro h left p hp w hw
    rw [harrive, Option.map_eq_some_iff] at hp
    obtain ⟨p, hp, heq⟩ := hp
    cases heq
    rw [hexpand, Option.some.injEq] at hw
    subst hw
    refine (h p hp).imp (fun hin => ⟨hin, fun d hd hjobs => ?_⟩) fun hnone => hnone
    rw [directory_of_noLinks] at hjobs
    exact jobDirs_apart hl hroot hd hjobs hp hin

/- The store below `/opt`, and its script directory with a link in it to the directory itself and
one to the request of job 0. -/
def linkedDisk : LinkedDisk :=
  { disk := sampleDisk
    links := ((∅ : Map Place Bytes).insert
      ⟨[text "opt", text "repo", text "scripts"], text "here"⟩ (text "/opt/repo/scripts")).insert
      ⟨[text "opt", text "repo", text "scripts"], text "job.lua"⟩ (text "../../jobs/requests/0") }

theorem scripts_confined_sample :
    Confined emptyStore.1 linkedDisk [] (text "here/../scripts/a.lua") := by
  refine (scripts_confined_iff emptyStore.1 (text "/opt") (layout_construct _ _ _ _) (by decide)
    linkedDisk [] (text "here/../scripts/a.lua")).mpr ?_
  intro left p hp w hw
  have harrive : arrive linkedDisk [] emptyStore.1.m_scriptDir =
      some (40, [text "opt", text "repo", text "scripts"]) := by decide
  rw [harrive, Option.some.injEq] at hp
  cases hp
  have hway : expand linkedDisk 40 [text "opt", text "repo", text "scripts"]
      (names (cString (text "here/../scripts/a.lua"))) = some ⟨39, [],
        names (text "/opt/repo/scripts/../scripts/a.lua")⟩ := by decide
  rw [hway, Option.some.injEq] at hw
  subst hw
  exact Or.inl ⟨by decide, by decide⟩

/-- The route takes these names: the update overwrites the stored request of job 0, by its parent
steps or through a link. -/
theorem update_overwrites_request :
    10 ∉ text "../../jobs/requests/0" ∧
    file (updateScript emptyStore.1 ⟨sampleDisk, ∅⟩ [] (text "../../jobs/requests/0") (text "y")
      .stored) ⟨[text "opt", text "jobs", text "requests"], text "0"⟩ = some (text "y") ∧
    ¬ Confined emptyStore.1 ⟨sampleDisk, ∅⟩ [] (text "../../jobs/requests/0") ∧
    file (updateScript emptyStore.1 linkedDisk [] (text "job.lua") (text "y") .stored)
      ⟨[text "opt", text "jobs", text "requests"], text "0"⟩ = some (text "y") := by
  refine ⟨by decide, by decide, ?_, by decide⟩
  intro h
  have hjobs := h.jobs (text "y") .stored (text "/opt/jobs/requests") (by decide)
    [text "opt", text "jobs", text "requests"] (by decide) (text "0")
  revert hjobs
  decide

end OpcUaTestTool.ScriptLinks
