import OpcUaTestTool.FileSystem
import OpcUaTestTool.TestRunner

/-! `DataBase::getScript` and `updateScript` in a store without symbolic links: both open the path
of the script directory with the name put behind it. -/
namespace OpcUaTestTool.ScriptPaths
open FiniteMap Numerals Directory FileSystem Store TestRunner

/-- `m_scriptDir + "/" + name` -/
def scriptPath (scriptDir name : Bytes) : Bytes := scriptDir ++ text "/" ++ name

/-- `DataBase::getScript`. A directory opens, but nothing can be read from it. -/
def getScript (db : DataBase) (fs : Disk) (cwd : Path) (name : Bytes) : Bytes :=
  match openRead fs cwd (scriptPath db.m_scriptDir name) with
  | .failed => text "job not found"
  | .directory => []
  | .regular _ content => content

/-- A file name as `operator<<` writes a path: between quotes, with escaped quotes and
backslashes. -/
def quoted (name : Bytes) : Bytes :=
  [34] ++ name.flatMap (fun b => if b = 34 ∨ b = 92 then [92, b] else [b]) ++ [34]

/-- `DataBase::getScripts`, where the directory iterator yields the entries. -/
def getScripts : List Bytes → Bytes
  | [] => text "[\n" ++ text "]\n"
  | entry :: entries =>
    text "[\n" ++ text "\x7b\n" ++ text "\"name\": " ++ quoted entry ++ text "\x7d" ++
      (entries.flatMap fun entry =>
        text ",\x7b\n" ++ text "\"name\": " ++ quoted entry ++ text "\x7d") ++ text "]\n"

/-- `DataBase::updateScript`. The stream is never checked. -/
def updateScript (db : DataBase) (fs : Disk) (cwd : Path) (name content : Bytes) (w : Storing) :
    Disk :=
  write fs cwd (scriptPath db.m_scriptDir name) content w

/-- In or below the script directory. -/
def InScripts (db : DataBase) (fs : Disk) (cwd : Path) (q : Place) : Prop :=
  ∃ p, directory fs cwd db.m_scriptDir = some p ∧ p <+: q.dir

def jobDirs (db : DataBase) : List Bytes :=
  [db.m_jobs_requests_dir, db.m_jobs_finished_dir, db.m_rootDir ++ text "/logs"]

/-- Going through the names without looking at the files, the file's directory is the directory
one started from, or below it. -/
def StaysInside (p : Path) (name : Bytes) : Prop := p <+: lexical p (names (cString name)).dropLast

instance (p : Path) (name : Bytes) : Decidable (StaysInside p name) :=
  inferInstanceAs (Decidable (_ <+: _))

/-- The name stays in the script directory, or nothing can be opened under it. -/
def Harmless (db : DataBase) (fs : Disk) (cwd : Path) (name : Bytes) : Prop :=
  ∀ p, directory fs cwd db.m_scriptDir = some p →
    StaysInside p name ∨ placeFrom fs p (cString name) = none

/- The directories, as the constructor derives them from the root directory. -/
structure Layout (db : DataBase) (root : Bytes) : Prop where
  rooted : Rooted db root
  rootDir : db.m_rootDir = root
  scripts : db.m_scriptDir = root ++ text "/repo/scripts"
  targets : db.m_targetDir = root ++ text "/repo/targets"

theorem layout_construct (root repo : Bytes) (t : Tree) (cloned : Option Repo) :
    Layout (DataBase.construct root repo t cloned).1 root := by
  have hrooted := rooted_construct root repo t cloned
  cases h : t.jobs with
  | none => exact ⟨hrooted, by simp [DataBase.construct, h], by simp [DataBase.construct, h],
      by simp [DataBase.construct, h]⟩
  | some jobs => exact ⟨hrooted, by simp [DataBase.construct, h], by simp [DataBase.construct, h],
      by simp [DataBase.construct, h]⟩

variable {db : DataBase} {root : Bytes} {fs : Disk} {cwd : Path} {name : Bytes}

/-- A directory given below the root directory lies where its names lead to from there. -/
theorem directory_below_root (hroot : 0 ∉ root) {rest : Bytes} (hrest : 0 ∉ rest) {p : Path}
    (h : directory fs cwd (root ++ 47 :: rest) = some p) :
    p = lexical (lexical (base cwd (root ++ [47])) (names root)) (names rest) := by
  have hz : 0 ∉ root ++ 47 :: rest := by
    have h47 : (0 : UInt8) ≠ 47 := by decide
    simp [hroot, hrest, h47]
  have hbase : base cwd (root ++ 47 :: rest) = base cwd (root ++ [47]) := by
    cases root with
    | nil => rfl
    | cons c root => rfl
  rw [directory, cString_eq_self hz, names_append, hbase] at h
  rw [(walk_eq_some h).1, lexical, List.foldl_append]
  rfl

theorem enter_of_plain {part : Bytes} (h : part ≠ [] ∧ part ≠ text "." ∧ part ≠ text "..")
    (p : Path) : enter p part = p ++ [part] := by
  simp [enter, h.1, h.2.1, h.2.2]

theorem lexical_of_plain (p : Path) {path : List Bytes}
    (h : ∀ part ∈ path, part ≠ [] ∧ part ≠ text "." ∧ part ≠ text "..") :
    lexical p path = p ++ path := by
  induction path generalizing p with
  | nil => simp [lexical]
  | cons part path ih =>
    have htail := ih (p ++ [part]) fun q hq => h q (List.mem_cons_of_mem _ hq)
    rw [lexical, List.foldl_cons, enter_of_plain (h part List.mem_cons_self)]
    rw [lexical] at htail
    rw [htail, List.append_assoc]
    rfl

/-- The directories of the jobs do not lie in the script directory. -/
theorem jobDirs_apart (hl : Layout db root) (hroot : 0 ∉ root) {d : Bytes} (hd : d ∈ jobDirs db)
    {p s : Path} (hp : directory fs cwd d = some p)
    (hs : directory fs cwd db.m_scriptDir = some s) : ¬ s <+: p := by
  have apart (rest : Bytes) (hrest : 0 ∉ rest)
      (hplain : ∀ part ∈ names rest, part ≠ [] ∧ part ≠ text "." ∧ part ≠ text "..")
      (hnames : ¬ [text "repo", text "scripts"] <+: names rest)
      (hp : directory fs cwd (root ++ 47 :: rest) = some p) : ¬ s <+: p := by
    rw [hl.scripts] at hs
    have hfree : 0 ∉ text "repo/scripts" := by decide
    have hs' := directory_below_root hroot hfree hs
    rw [lexical_of_plain _ (by decide)] at hs'
    rw [hs', directory_below_root hroot hrest hp, lexical_of_plain _ hplain,
      List.prefix_append_right_inj]
    exact hnames
  simp only [jobDirs, hl.rooted.1, hl.rooted.2, hl.rootDir, List.mem_cons, List.not_mem_nil,
    or_false] at hd
  cases hd with
  | inl h => exact apart (text "jobs/requests") (by decide) (by decide) (by decide) (h ▸ hp)
  | inr h =>
    cases h with
    | inl h => exact apart (text "jobs/finished") (by decide) (by decide) (by decide) (h ▸ hp)
    | inr h => exact apart (text "logs") (by decide) (by decide) (by decide) (h ▸ hp)

/-- A path that is given below the root directory is not empty and has no NUL. -/
theorem below_root (hroot : 0 ∉ root) {rest : Bytes} (hrest : 0 ∉ rest) (hne : rest ≠ []) :
    0 ∉ root ++ rest ∧ root ++ rest ≠ [] := by
  refine ⟨?_, ?_⟩
  · intro h
    cases List.mem_append.mp h with
    | inl h => exact hroot h
    | inr h => exact hrest h
  · intro h
    exact hne (List.append_eq_nil_iff.mp h).2

theorem place_scriptPath (hl : Layout db root) (hroot : 0 ∉ root) (fs : Disk) (cwd : Path)
    (name : Bytes) :
    place fs cwd (scriptPath db.m_scriptDir name) =
      (directory fs cwd db.m_scriptDir).bind fun p => placeFrom fs p (cString name) := by
  have hbelow : 0 ∉ db.m_scriptDir ∧ db.m_scriptDir ≠ [] := by
    rw [hl.scripts]
    exact below_root hroot (by decide) (by decide)
  have hpath : scriptPath db.m_scriptDir name = db.m_scriptDir ++ 47 :: name := by
    rw [scriptPath, List.append_assoc]
    rfl
  rw [hpath, place_append hbelow.2 hbelow.1]

/-- What a harmless name opens lies in the script directory. -/
theorem Harmless.inScripts (hl : Layout db root) (hroot : 0 ∉ root)
    (h : Harmless db fs cwd name) {q : Place}
    (hq : place fs cwd (scriptPath db.m_scriptDir name) = some q) : InScripts db fs cwd q := by
  rw [place_scriptPath hl hroot, Option.bind_eq_some_iff] at hq
  obtain ⟨p, hp, hq⟩ := hq
  refine ⟨p, hp, ?_⟩
  cases h p hp with
  | inl hin =>
    rw [(placeFrom_eq_some hq).1]
    exact hin
  | inr hnone =>
    rw [hq] at hnone
    cases hnone

/- A store below `/opt` with one script and one job request. -/
def sampleDisk : Disk :=
  ([([], ∅), ([text "opt"], ∅), ([text "opt", text "jobs"], ∅),
    ([text "opt", text "jobs", text "requests"], (∅ : Dir).insert (text "0") (text "request")),
    ([text "opt", text "jobs", text "finished"], ∅), ([text "opt", text "logs"], ∅),
    ([text "opt", text "repo"], ∅),
    ([text "opt", text "repo", text "scripts"], (∅ : Dir).insert (text "a.lua") (text "x"))] :
      List (Path × Dir)).foldl (fun fs d => fs.insert d.1 d.2) ∅

end OpcUaTestTool.ScriptPaths
