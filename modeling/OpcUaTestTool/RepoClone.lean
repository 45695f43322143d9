import OpcUaTestTool.CriticalSections
import OpcUaTestTool.ScriptPaths
import OpcUaTestTool.Transition

/-! `getScripts.sh`, run by `DataBase::cloneScriptRepo`, next to the requests and the test runners
that use the scripts: the removal and the clone change the directory step by step. -/
namespace OpcUaTestTool.RepoClone
open FiniteMap Numerals Directory FileSystem Store TestRunner ScriptPaths CriticalSections
open Transition

/- What `rm` and `git` do to the file system. -/
inductive Change where
  | mkdir (p : Path)
  | create (q : Place)
  | append (q : Place) (piece : Bytes)
  | unlink (q : Place)
  | rmdir (p : Path)

def within (fs : Disk) (p : Path) (f : Dir → Dir) : Disk :=
  match fs.lookup p with
  | none => fs
  | some d => fs.insert p (f d)

/-- Nothing but the directory itself, without files, lies at this path or below. -/
def Bare (fs : Disk) (p : Path) : Prop :=
  ∀ r ∈ fs.keys, p <+: r → r = p ∧ ∀ d ∈ fs.lookup r, d.keys = []

instance (fs : Disk) (p : Path) : Decidable (Bare fs p) :=
  inferInstanceAs (Decidable (∀ r ∈ fs.keys, p <+: r → r = p ∧ ∀ d ∈ fs.lookup r, d.keys = []))

def Change.apply (fs : Disk) : Change → Disk
  | .mkdir p => if p ∈ fs then fs else fs.insert p ∅
  | .create q => within fs q.dir fun d => openTruncate d q.name
  | .append q piece => within fs q.dir fun d => Directory.append d q.name piece
  | .unlink q => within fs q.dir fun d => d.erase q.name
  | .rmdir p => if Bare fs p then fs.erase p else fs

def Change.Below (repo : Path) : Change → Prop
  | .mkdir p => repo <+: p
  | .create q => repo <+: q.dir
  | .append q _ => repo <+: q.dir
  | .unlink q => repo <+: q.dir
  | .rmdir p => repo <+: p

instance (repo : Path) : (c : Change) → Decidable (c.Below repo)
  | .mkdir p => inferInstanceAs (Decidable (repo <+: p))
  | .create q => inferInstanceAs (Decidable (repo <+: q.dir))
  | .append q _ => inferInstanceAs (Decidable (repo <+: q.dir))
  | .unlink q => inferInstanceAs (Decidable (repo <+: q.dir))
  | .rmdir p => inferInstanceAs (Decidable (repo <+: p))

def Change.removes : Change → Bool
  | .unlink _ => true
  | .rmdir _ => true
  | _ => false

/- A run of the script: nothing is removed yet, `rm -rf` has removed something, `git clone` has
changes to make before the tree is the new one, or `git clone` has failed. -/
inductive Clone where
  | starting
  | removing
  | cloning (todo : List Change) (new : Disk)
  | failed

/-- The script is at the directory: since `rm -rf` has removed something, or since git has found
nothing there. -/
def Clone.Busy (c : Clone) : Prop := c ≠ .starting

instance : DecidablePred Clone.Busy
  | .starting => isFalse fun h => h rfl
  | .removing => isTrue (by simp [Clone.Busy])
  | .cloning _ _ => isTrue (by simp [Clone.Busy])
  | .failed => isTrue (by simp [Clone.Busy])

/-- What comes of a run that removes something; a clone that has failed removes what it made. -/
def Clone.remove : Clone → Option Clone
  | .starting => some .removing
  | .removing => some .removing
  | .cloning _ _ => none
  | .failed => some .failed

/-- `git clone` makes its changes to a directory that is missing or empty, and refuses others. -/
def Clone.gitClone (fs : Disk) (repo : Path) (changes : List Change) : Clone → Option Clone
  | .cloning _ _ => none
  | .failed => none
  | _ => if Bare fs repo then some (.cloning changes (changes.foldl Change.apply fs))
    else some .failed

inductive Operation where
  | getScripts
  | getScript (name : Bytes)
  | updateScript (name content : Bytes)
  | load (script : Bytes)

/- What an operation has seen at one moment, next to the complete tree of that moment and the
number of clones that had installed theirs. -/
structure Look where
  disk : Disk
  complete : Disk
  version : Nat

structure Running where
  operation : Operation
  looks : List Look := []

structure Answer where
  status : Nat
  ok : Bool
  disk : Disk
  complete : Disk

structure Service where
  disk : Disk
  complete : Disk
  version : Nat := 0
  clones : Map Nat Clone := ∅
  operations : Map Nat Running := ∅
  answers : List Answer := []

def Service.look (s : Service) : Look := ⟨s.disk, s.complete, s.version⟩

inductive Action where
  | cloneScriptRepo (j : Nat)
  | remove (j : Nat) (c : Change)
  | gitClone (j : Nat) (changes : List Change)
  | gitChange (j : Nat)
  | gitFail (j : Nat)
  | exit (j : Nat)
  | request (i : Nat) (operation : Operation)
  | look (i : Nat)
  | store (i : Nat) (w : Storing)

/-- `$1` of the script: `m_rootDir + "/repo"`. -/
def repoDirectory (db : DataBase) (cwd : Path) : Path :=
  let path := cString (db.m_rootDir ++ text "/repo")
  lexical (base cwd path) (names path)

/-- `TestService::cloneScriptRepo`: a status other than 0 is worth a warning, and the answer is
the same. -/
def cloneScriptRepo (_status : Nat) : Bool := true

def Service.answer (s : Service) (j status : Nat) : Service :=
  { s with
    clones := s.clones.erase j
    answers := s.answers ++ [⟨status, cloneScriptRepo status, s.disk, s.complete⟩] }

def step (db : DataBase) (cwd : Path) (s : Service) : Action → Option Service
  | .cloneScriptRepo j =>
    if j ∈ s.clones then none else some { s with clones := s.clones.insert j .starting }
  | .remove j c =>
    if c.removes ∧ c.Below (repoDirectory db cwd) then
      ((s.clones.lookup j).bind Clone.remove).map fun p =>
        { s with disk := c.apply s.disk, clones := s.clones.insert j p }
    else none
  | .gitClone j changes =>
    if ∀ c ∈ changes, c.Below (repoDirectory db cwd) then
      ((s.clones.lookup j).bind (Clone.gitClone s.disk (repoDirectory db cwd) changes)).map fun p =>
        { s with clones := s.clones.insert j p }
    else none
  | .gitChange j =>
    match s.clones.lookup j with
    | some (.cloning (c :: todo) new) =>
      some { s with disk := c.apply s.disk, clones := s.clones.insert j (.cloning todo new) }
    | _ => none
  | .gitFail j =>
    match s.clones.lookup j with
    | some (.cloning _ _) => some { s with clones := s.clones.insert j .failed }
    | _ => none
  | .exit j =>
    match s.clones.lookup j with
    | some (.cloning [] new) =>
      some ({ s with complete := new, version := s.version + 1 }.answer j 0)
    | some .failed => some (s.answer j 128)
    | _ => none
  | .request i operation =>
    if i ∈ s.operations then none
    else some { s with operations := s.operations.insert i ⟨operation, []⟩ }
  | .look i =>
    (s.operations.lookup i).map fun r =>
      { s with operations := s.operations.insert i { r with looks := r.looks ++ [s.look] } }
  | .store i w =>
    match s.operations.lookup i with
    | some ⟨.updateScript name content, looks⟩ =>
      some { s with
        disk := updateScript db s.disk cwd name content w
        complete := updateScript db s.complete cwd name content w
        operations := s.operations.insert i ⟨.updateScript name content, looks ++ [s.look]⟩ }
    | _ => none

def init (disk : Disk) : Service := { disk := disk, complete := disk }

/-- All an operation sees is one complete tree, but for the updates in between. -/
def Whole (r : Running) : Prop := ∃ v, ∀ l ∈ r.looks, l.version = v ∧ l.disk = l.complete

/-- A clone that fails says so and leaves every file as it was. -/
def Sound (repo : Path) (a : Answer) : Prop :=
  a.status ≠ 0 → a.ok = false ∧ ∀ q : Place, repo <+: q.dir → file a.disk q = file a.complete q

structure Intact (db : DataBase) (cwd : Path) (s : Service) : Prop where
  operations : ∀ i r, s.operations.lookup i = some r → Whole r
  answers : ∀ a ∈ s.answers, Sound (repoDirectory db cwd) a

/-- No clone is at the directory while another one is at it, none fails, and no operation uses
it meanwhile, or before and after. -/
def Separate (s : Service) : Action → Prop
  | .remove j _ => Alone Clone.Busy s.clones j
  | .gitClone j _ => Alone Clone.Busy s.clones j
  | .exit j => s.clones.lookup j ≠ some .failed
  | .look i => Idle Clone.Busy s.clones ∧
      ∀ r, s.operations.lookup i = some r → ∀ l ∈ r.looks, l.version = s.version
  | .store i _ => Idle Clone.Busy s.clones ∧
      ∀ r, s.operations.lookup i = some r → ∀ l ∈ r.looks, l.version = s.version
  | _ => True

instance (s : Service) : (a : Action) → Decidable (Separate s a)
  | .cloneScriptRepo _ => isTrue trivial
  | .remove j _ => inferInstanceAs (Decidable (Alone Clone.Busy s.clones j))
  | .gitClone j _ => inferInstanceAs (Decidable (Alone Clone.Busy s.clones j))
  | .gitChange _ => isTrue trivial
  | .gitFail _ => isTrue trivial
  | .exit j =>
    match h : s.clones.lookup j with
    | some .failed => isFalse fun hne => hne h
    | some .starting => isTrue (by simp [Separate, h])
    | some .removing => isTrue (by simp [Separate, h])
    | some (.cloning _ _) => isTrue (by simp [Separate, h])
    | none => isTrue (by simp [Separate, h])
  | .request _ _ => isTrue trivial
  | .look i => inferInstanceAs (Decidable (Idle Clone.Busy s.clones ∧
      ∀ r ∈ s.operations.lookup i, ∀ l ∈ r.looks, l.version = s.version))
  | .store i _ => inferInstanceAs (Decidable (Idle Clone.Busy s.clones ∧
      ∀ r ∈ s.operations.lookup i, ∀ l ∈ r.looks, l.version = s.version))

/- What holds while the conditions are met. A tree that is being cloned lacks the changes that are
still to be made. -/
structure Sane (db : DataBase) (cwd : Path) (s : Service) : Prop where
  idle : Idle Clone.Busy s.clones → s.disk = s.complete
  exclusive : Exclusive Clone.Busy s.clones
  cloning : ∀ j todo new, s.clones.lookup j = some (.cloning todo new) →
    todo.foldl Change.apply s.disk = new
  intact : Intact db cwd s

theorem sane_init (db : DataBase) (cwd : Path) (disk : Disk) : Sane db cwd (init disk) := by
  refine ⟨fun _ => rfl, idle_empty.exclusive, ?_, ?_, ?_⟩
  · intro j todo new hl
    cases hl
  · intro i r hl
    cases hl
  · intro a ha
    cases ha

/-- The one clone that changes something, and what it is then. -/
theorem Sane.change {db : DataBase} {cwd : Path} {s : Service} (hs : Sane db cwd s) {j : Nat}
    (ha : Alone Clone.Busy s.clones j) {p : Clone} (hp : p.Busy) (disk : Disk)
    (hcloning : ∀ todo new, p = .cloning todo new → todo.foldl Change.apply disk = new) :
    Sane db cwd { s with disk := disk, clones := s.clones.insert j p } := by
  refine ⟨?_, Exclusive.insert ha p, ?_, hs.intact.operations, hs.intact.answers⟩
  · intro hidle
    exact absurd hp (hidle j p (AList.lookup_insert _))
  · intro k todo new hl
    cases lookup_insert_eq_some.mp hl with
    | inl hl => exact hcloning todo new hl.2
    | inr hl => exact absurd (by simp [Clone.Busy]) (ha k _ hl.1 hl.2)

theorem Sane.alone {db : DataBase} {cwd : Path} {s : Service} (hs : Sane db cwd s) {j : Nat}
    {todo : List Change} {new : Disk} (hl : s.clones.lookup j = some (.cloning todo new)) :
    Alone Clone.Busy s.clones j :=
  hs.exclusive j _ hl (by simp [Clone.Busy])

theorem Clone.remove_eq_some {p q : Clone} (h : p.remove = some q) :
    q = .removing ∨ q = .failed := by
  cases p with
  | starting => exact Or.inl (Option.some.inj h).symm
  | removing => exact Or.inl (Option.some.inj h).symm
  | cloning todo new => cases h
  | failed => exact Or.inr (Option.some.inj h).symm

theorem Clone.gitClone_eq_some {fs : Disk} {repo : Path} {changes : List Change} {p q : Clone}
    (h : p.gitClone fs repo changes = some q) :
    q = .cloning changes (changes.foldl Change.apply fs) ∨ q = .failed := by
  have hcase : (if Bare fs repo then some (Clone.cloning changes (changes.foldl Change.apply fs))
      else some .failed) = some q := by
    cases p with
    | starting => exact h
    | removing => exact h
    | cloning todo new => cases h
    | failed => cases h
  split at hcase
  · exact Or.inl (Option.some.inj hcase).symm
  · exact Or.inr (Option.some.inj hcase).symm

theorem step_cloneScriptRepo {db : DataBase} {cwd : Path} {s t : Service} {j : Nat}
    (h : step db cwd s (.cloneScriptRepo j) = some t) :
    j ∉ s.clones ∧ t = { s with clones := s.clones.insert j .starting } := by
  simp only [step] at h
  split at h
  · cases h
  · rename_i hj
    exact ⟨hj, (Option.some.inj h).symm⟩

theorem step_remove {db : DataBase} {cwd : Path} {s t : Service} {j : Nat} {c : Change}
    (h : step db cwd s (.remove j c) = some t) : ∃ p, (p = .removing ∨ p = .failed) ∧
      t = { s with disk := c.apply s.disk, clones := s.clones.insert j p } := by
  simp only [step] at h
  split at h
  · simp only [Option.map_eq_some_iff, Option.bind_eq_some_iff] at h
    obtain ⟨p, ⟨_, _, hp⟩, rfl⟩ := h
    exact ⟨p, Clone.remove_eq_some hp, rfl⟩
  · cases h

theorem step_gitClone {db : DataBase} {cwd : Path} {s t : Service} {j : Nat}
    {changes : List Change} (h : step db cwd s (.gitClone j changes) = some t) :
    ∃ p, (p = .cloning changes (changes.foldl Change.apply s.disk) ∨ p = .failed) ∧
      t = { s with clones := s.clones.insert j p } := by
  simp only [step] at h
  split at h
  · simp only [Option.map_eq_some_iff, Option.bind_eq_some_iff] at h
    obtain ⟨p, ⟨_, _, hp⟩, rfl⟩ := h
    exact ⟨p, Clone.gitClone_eq_some hp, rfl⟩
  · cases h

theorem step_gitChange {db : DataBase} {cwd : Path} {s t : Service} {j : Nat}
    (h : step db cwd s (.gitChange j) = some t) : ∃ c todo new,
      s.clones.lookup j = some (.cloning (c :: todo) new) ∧
      t = { s with disk := c.apply s.disk, clones := s.clones.insert j (.cloning todo new) } := by
  simp only [step] at h
  split at h
  · rename_i c todo new hl
    exact ⟨c, todo, new, hl, (Option.some.inj h).symm⟩
  · cases h

theorem step_gitFail {db : DataBase} {cwd : Path} {s t : Service} {j : Nat}
    (h : step db cwd s (.gitFail j) = some t) : ∃ todo new,
      s.clones.lookup j = some (.cloning todo new) ∧
      t = { s with clones := s.clones.insert j .failed } := by
  simp only [step] at h
  split at h
  · rename_i todo new hl
    exact ⟨todo, new, hl, (Option.some.inj h).symm⟩
  · cases h

theorem step_exit {db : DataBase} {cwd : Path} {s t : Service} {j : Nat}
    (h : step db cwd s (.exit j) = some t) :
    (∃ new, s.clones.lookup j = some (.cloning [] new) ∧
      t = { s with complete := new, version := s.version + 1 }.answer j 0) ∨
    (s.clones.lookup j = some .failed ∧ t = s.answer j 128) := by
  simp only [step] at h
  split at h
  · rename_i new hl
    exact Or.inl ⟨new, hl, (Option.some.inj h).symm⟩
  · rename_i hl
    exact Or.inr ⟨hl, (Option.some.inj h).symm⟩
  · cases h

theorem step_request {db : DataBase} {cwd : Path} {s t : Service} {i : Nat} {operation : Operation}
    (h : step db cwd s (.request i operation) = some t) :
    t = { s with operations := s.operations.insert i ⟨operation, []⟩ } := by
  simp only [step] at h
  split at h
  · cases h
  · exact (Option.some.inj h).symm

theorem step_store {db : DataBase} {cwd : Path} {s t : Service} {i : Nat} {w : Storing}
    (h : step db cwd s (.store i w) = some t) : ∃ name content looks,
      s.operations.lookup i = some ⟨.updateScript name content, looks⟩ ∧
      t = { s with
        disk := updateScript db s.disk cwd name content w
        complete := updateScript db s.complete cwd name content w
        operations :=
          s.operations.insert i ⟨.updateScript name content, looks ++ [s.look]⟩ } := by
  simp only [step] at h
  split at h
  · rename_i name content looks hl
    exact ⟨name, content, looks, hl, (Option.some.inj h).symm⟩
  · cases h

theorem whole_look {s : Service} {r : Running} (hr : Whole r) (hdisk : s.disk = s.complete)
    (hv : ∀ l ∈ r.looks, l.version = s.version) :
    Whole { r with looks := r.looks ++ [s.look] } := by
  obtain ⟨v, hall⟩ := hr
  refine ⟨s.version, ?_⟩
  intro l hl
  cases List.mem_append.mp hl with
  | inl hl => exact ⟨hv l hl, (hall l hl).2⟩
  | inr hl =>
    obtain rfl := List.mem_singleton.mp hl
    exact ⟨rfl, hdisk⟩

theorem intact_operations {db : DataBase} {cwd : Path} {s : Service} (hs : Intact db cwd s)
    (i : Nat) {r : Running} (hr : Whole r) :
    ∀ k r', (s.operations.insert i r).lookup k = some r' → Whole r' := by
  intro k r' hl
  cases lookup_insert_eq_some.mp hl with
  | inl hl => exact hl.2 ▸ hr
  | inr hl => exact hs.operations k r' hl.2

/-- Another operation that sees one complete tree. -/
theorem Sane.operation {db : DataBase} {cwd : Path} {s : Service} (hs : Sane db cwd s) (i : Nat)
    {r : Running} (hr : Whole r) :
    Sane db cwd { s with operations := s.operations.insert i r } :=
  ⟨hs.idle, hs.exclusive, hs.cloning, intact_operations hs.intact i hr, hs.intact.answers⟩

/-- Between the clones the tree is complete after any update as it was before. -/
theorem Sane.update {db : DataBase} {cwd : Path} {s : Service} (hs : Sane db cwd s)
    (hidle : Idle Clone.Busy s.clones) (f : Disk → Disk) :
    Sane db cwd { s with disk := f s.disk, complete := f s.complete } := by
  refine ⟨fun _ => by rw [hs.idle hidle], hs.exclusive, ?_, hs.intact.operations,
    hs.intact.answers⟩
  intro k todo new hk
  exact absurd (by simp [Clone.Busy]) (hidle k _ hk)

/-- A clone that begins has changed nothing. -/
theorem Sane.start {db : DataBase} {cwd : Path} {s : Service} (hs : Sane db cwd s) {j : Nat}
    (hj : j ∉ s.clones) : Sane db cwd { s with clones := s.clones.insert j .starting } := by
  refine ⟨fun hidle => hs.idle (hidle.of_insert (outside_of_notMem hj)),
    hs.exclusive.insert_outside (by simp [Clone.Busy]), ?_, hs.intact.operations,
    hs.intact.answers⟩
  intro k todo new hl
  cases lookup_insert_eq_some.mp hl with
  | inl hl => cases hl.2
  | inr hl => exact hs.cloning k todo new hl.2

/-- A clone that has made all its changes has put the new tree there. -/
theorem sane_exit {db : DataBase} {cwd : Path} {s : Service} (hs : Sane db cwd s) {j : Nat}
    {new : Disk} (hl : s.clones.lookup j = some (.cloning [] new)) :
    Sane db cwd ({ s with complete := new, version := s.version + 1 }.answer j 0) := by
  have hidle : Idle Clone.Busy (s.clones.erase j) := Idle.erase (hs.alone hl)
  refine ⟨fun _ => hs.cloning j [] new hl, hidle.exclusive, ?_, hs.intact.operations, ?_⟩
  · intro k todo new' hk
    exact absurd (by simp [Clone.Busy]) (hidle k _ hk)
  · intro a ha
    cases List.mem_append.mp ha with
    | inl ha => exact hs.intact.answers a ha
    | inr ha =>
      obtain rfl := List.mem_singleton.mp ha
      intro hstatus
      exact absurd rfl hstatus

theorem sane_step {db : DataBase} {cwd : Path} {s t : Service} {a : Action} (hs : Sane db cwd s)
    (hc : Separate s a) (h : step db cwd s a = some t) : Sane db cwd t := by
  cases a with
  | cloneScriptRepo j =>
    obtain ⟨hj, rfl⟩ := step_cloneScriptRepo h
    exact hs.start hj
  | remove j c =>
    obtain ⟨p, hp, rfl⟩ := step_remove h
    cases hp with
    | inl hp => exact hs.change hc (by simp [hp, Clone.Busy]) _ (by simp [hp])
    | inr hp => exact hs.change hc (by simp [hp, Clone.Busy]) _ (by simp [hp])
  | gitClone j changes =>
    obtain ⟨p, hp, rfl⟩ := step_gitClone h
    cases hp with
    | inl hp =>
      refine hs.change hc (by simp [hp, Clone.Busy]) _ ?_
      intro todo new heq
      cases hp.symm.trans heq
      rfl
    | inr hp => exact hs.change hc (by simp [hp, Clone.Busy]) _ (by simp [hp])
  | gitChange j =>
    obtain ⟨c, todo, new, hl, rfl⟩ := step_gitChange h
    refine hs.change (hs.alone hl) (by simp [Clone.Busy]) _ ?_
    intro todo' new' heq
    cases heq
    exact hs.cloning j (c :: todo) new hl
  | gitFail j =>
    obtain ⟨todo, new, hl, rfl⟩ := step_gitFail h
    exact hs.change (hs.alone hl) (by simp [Clone.Busy]) _ (by simp)
  | exit j =>
    cases step_exit h with
    | inl hx =>
      obtain ⟨new, hl, rfl⟩ := hx
      exact sane_exit hs hl
    | inr hx => exact absurd hx.1 hc
  | request i operation =>
    obtain rfl := step_request h
    exact hs.operation i ⟨0, by simp⟩
  | look i =>
    simp only [step, Option.map_eq_some_iff] at h
    obtain ⟨r, hl, rfl⟩ := h
    exact hs.operation i (whole_look (hs.intact.operations i r hl) (hs.idle hc.1) (hc.2 r hl))
  | store i w =>
    obtain ⟨name, content, looks, hl, rfl⟩ := step_store h
    have hr := whole_look (hs.intact.operations i _ hl) (hs.idle hc.1) (hc.2 _ hl)
    exact (hs.update hc.1 fun fs => updateScript db fs cwd name content w).operation i hr

/-- In a run in which clones succeed and nothing touches the directory while one of them is at it,
each operation sees one complete tree. -/
theorem scripts_intact (db : DataBase) (cwd : Path) (disk : Disk) (as : List Action)
    (hm : Meets (step db cwd) Separate (init disk) as) :
    Along (step db cwd) (Intact db cwd) (init disk) as := by
  have hkeep : ∀ s a t, Sane db cwd s → Separate s a → step db cwd s a = some t → Sane db cwd t :=
    fun _ _ _ hs hc h => sane_step hs hc h
  exact along_of_invariant hkeep (fun _ h => h.intact) (sane_init db cwd disk) hm

def scripts : Path := [text "opt", text "repo", text "scripts"]

/- A request reads the old script; the clone replaces it, and an update follows. -/
def sampleRun : List Action :=
  [.cloneScriptRepo 0, .request 1 (.getScript (text "a.lua")), .look 1,
    .remove 0 (.unlink ⟨scripts, text "a.lua"⟩), .remove 0 (.rmdir scripts),
    .gitClone 0 [.mkdir scripts, .create ⟨scripts, text "b.lua"⟩,
      .append ⟨scripts, text "b.lua"⟩ (text "y")],
    .gitChange 0, .gitChange 0, .gitChange 0, .exit 0,
    .request 2 (.updateScript (text "b.lua") (text "z")), .store 2 .stored]

set_option maxRecDepth 4000 in
theorem scripts_intact_sample : ∃ s,
    run (step emptyStore.1 []) (init sampleDisk) sampleRun = some s ∧
    file s.disk ⟨scripts, text "b.lua"⟩ = some (text "z") ∧
    Along (step emptyStore.1 []) (Intact emptyStore.1 []) (init sampleDisk) sampleRun :=
  ⟨_, rfl, by decide, scripts_intact emptyStore.1 [] sampleDisk sampleRun (by decide)⟩

/- `rm` removes a script and then fails, so that `git` refuses the directory. -/
def failingRun : List Action :=
  [.cloneScriptRepo 0, .request 1 (.getScript (text "a.lua")),
    .remove 0 (.unlink ⟨scripts, text "a.lua"⟩), .look 1, .gitClone 0 [], .exit 0]

/-- The request does not find the script, it is gone, and the clone is answered with ok. -/
theorem script_lost : ∃ s,
    run (step emptyStore.1 []) (init sampleDisk) failingRun = some s ∧
    (∃ r, s.operations.lookup 1 = some r ∧
      r.looks.map (fun l => getScript emptyStore.1 l.disk [] (text "a.lua")) =
        [text "job not found"] ∧ ¬ Whole r) ∧
    s.answers.map (fun a => (a.status, a.ok)) = [(128, true)] ∧
    file s.disk ⟨scripts, text "a.lua"⟩ = none ∧ ¬ Intact emptyStore.1 [] s := by
  refine ⟨_, rfl, ⟨_, rfl, by decide, ?_⟩, rfl, by decide, ?_⟩
  · intro hw
    obtain ⟨v, hall⟩ := hw
    have hsame := congrArg (fun fs => file fs ⟨scripts, text "a.lua"⟩)
      (hall _ (List.mem_singleton.mpr rfl)).2
    revert hsame
    decide
  · intro hi
    have hok := (hi.answers _ (List.mem_singleton.mpr rfl) (by decide)).1
    exact absurd hok (by decide)

end OpcUaTestTool.RepoClone
