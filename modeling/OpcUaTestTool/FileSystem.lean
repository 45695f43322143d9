import OpcUaTestTool.Directory

/-! Trees of directories without symbolic links: paths followed name by name, as the kernel does it,
and files opened through a path. -/
namespace OpcUaTestTool.FileSystem
open FiniteMap Numerals Directory

/-- A directory, by the names that lead to it from the root. -/
abbrev Path := List Bytes

/-- Every directory that exists, with its regular files. -/
abbrev Disk := Map Path Dir

/- A regular file, or the place for one. -/
structure Place where
  dir : Path
  name : Bytes
  deriving DecidableEq

def file (fs : Disk) (q : Place) : Option Bytes :=
  (fs.lookup q.dir).bind (AList.lookup q.name)

/-- What a system call sees of a string: the bytes before the first NUL. -/
def cString (path : Bytes) : Bytes := path.takeWhile (· ≠ 0)

def names (path : Bytes) : List Bytes := path.splitOn 47

/-- One name of a path: an empty one and `.` stay, `..` leads to the parent. -/
def enter (p : Path) (name : Bytes) : Path :=
  if name = [] ∨ name = text "." then p
  else if name = text ".." then p.dropLast
  else p ++ [name]

/-- Following names, each from a directory that exists to another one. -/
def walk (fs : Disk) : Path → List Bytes → Option Path
  | p, [] => if p ∈ fs then some p else none
  | p, name :: rest => if p ∈ fs then walk fs (enter p name) rest else none

/-- The same without a look at the directories. -/
def lexical (p : Path) (path : List Bytes) : Path := path.foldl enter p

/-- Where a path starts: at the root or in the working directory. -/
def base (cwd : Path) (path : Bytes) : Path := if path.head? = some 47 then [] else cwd

def directory (fs : Disk) (cwd : Path) (path : Bytes) : Option Path :=
  walk fs (base cwd (cString path)) (names (cString path))

/-- The place some names lead to from a directory; none if a directory on the way is missing or
they lead to a directory. -/
def placeAt (fs : Disk) (p : Path) (path : List Bytes) : Option Place :=
  match walk fs p path.dropLast with
  | none => none
  | some dir =>
    let name := path.getLastD []
    if enter dir name ∈ fs then none else some ⟨dir, name⟩

def placeFrom (fs : Disk) (p : Path) (path : Bytes) : Option Place := placeAt fs p (names path)

def place (fs : Disk) (cwd : Path) (path : Bytes) : Option Place :=
  placeFrom fs (base cwd (cString path)) (cString path)

/- What opening a path for input gives. -/
inductive Opened where
  | failed
  | directory
  | regular (q : Place) (content : Bytes)
  deriving DecidableEq

def openRead (fs : Disk) (cwd : Path) (path : Bytes) : Opened :=
  match directory fs cwd path with
  | some _ => .directory
  | none =>
    match place fs cwd path with
    | none => .failed
    | some q =>
      match file fs q with
      | none => .failed
      | some content => .regular q content

/-- A file is written in its place. -/
def put (fs : Disk) (q : Place) (content : Bytes) (w : Storing) : Disk :=
  match fs.lookup q.dir with
  | none => fs
  | some d => fs.insert q.dir (store d q.name content w)

/-- Open for output, write, close. -/
def write (fs : Disk) (cwd : Path) (path content : Bytes) (w : Storing) : Disk :=
  match place fs cwd path with
  | none => fs
  | some q => put fs q content w

theorem names_ne_nil (path : Bytes) : names path ≠ [] := List.splitOn_ne_nil _ _

/-- A separator splits a path into the names before it and the names after it. -/
theorem names_append (d path : Bytes) : names (d ++ 47 :: path) = names d ++ names path :=
  List.splitOn_append_cons_self _ _

theorem cString_append {d : Bytes} (hd : 0 ∉ d) (path : Bytes) :
    cString (d ++ path) = d ++ cString path := by
  unfold cString
  rw [List.takeWhile_append_of_pos]
  intro b hb
  have hne : b ≠ 0 := fun h => hd (h ▸ hb)
  simpa using hne

theorem cString_eq_self {d : Bytes} (hd : 0 ∉ d) : cString d = d := by
  have h := cString_append hd []
  simpa [cString] using h

theorem base_append {d : Bytes} (hd : d ≠ []) (cwd : Path) (path : Bytes) :
    base cwd (d ++ path) = base cwd d := by
  cases d with
  | nil => exact absurd rfl hd
  | cons b d => rfl

theorem walk_append (fs : Disk) (p : Path) (a b : List Bytes) :
    walk fs p (a ++ b) = (walk fs p a).bind fun q => walk fs q b := by
  induction a generalizing p with
  | nil =>
    by_cases hp : p ∈ fs
    · simp [walk, hp]
    · cases b with
      | nil => simp [walk, hp]
      | cons name rest => simp [walk, hp]
  | cons name a ih =>
    by_cases hp : p ∈ fs
    · simpa [walk, hp] using ih (enter p name)
    · simp [walk, hp]

/-- A walk that arrives does so where the names alone say, in a directory. -/
theorem walk_eq_some {fs : Disk} {p q : Path} {path : List Bytes}
    (h : walk fs p path = some q) : q = lexical p path ∧ q ∈ fs := by
  induction path generalizing p with
  | nil =>
    by_cases hp : p ∈ fs
    · simp only [walk, if_pos hp, Option.some.injEq] at h
      subst h
      exact ⟨rfl, hp⟩
    · simp [walk, hp] at h
  | cons name rest ih =>
    by_cases hp : p ∈ fs
    · simp only [walk, if_pos hp] at h
      exact ih h
    · simp [walk, hp] at h

theorem placeAt_append (fs : Disk) (p : Path) (a : List Bytes) {b : List Bytes} (hb : b ≠ []) :
    placeAt fs p (a ++ b) = (walk fs p a).bind fun q => placeAt fs q b := by
  have hlast : (a ++ b).getLastD [] = b.getLastD [] := by
    simp [List.getLastD_eq_getLast?, List.getLast?_append_of_ne_nil _ hb]
  simp only [placeAt, hlast, walk_append, List.dropLast_append_of_ne_nil hb]
  cases walk fs p a with
  | none => rfl
  | some q => rfl

/-- A path below a directory names what its rest names from there. -/
theorem placeFrom_append (fs : Disk) (p : Path) (d path : Bytes) :
    placeFrom fs p (d ++ 47 :: path) =
      (walk fs p (names d)).bind fun q => placeFrom fs q path := by
  rw [placeFrom, names_append, placeAt_append _ _ _ (names_ne_nil path)]
  rfl

theorem place_append {d : Bytes} (hne : d ≠ []) (hd : 0 ∉ d) (fs : Disk) (cwd : Path)
    (path : Bytes) :
    place fs cwd (d ++ 47 :: path) =
      (directory fs cwd d).bind fun q => placeFrom fs q (cString path) := by
  have h47 : cString (47 :: path) = 47 :: cString path := by simp [cString]
  rw [place, directory, cString_append hd, cString_eq_self hd, h47, base_append hne,
    placeFrom_append]

/-- The directory above one that exists. -/
theorem directory_append {fs : Disk} {cwd : Path} {d path : Bytes} {p : Path} (hne : d ≠ [])
    (hd : 0 ∉ d) (h : directory fs cwd (d ++ 47 :: path) = some p) :
    ∃ q, directory fs cwd d = some q := by
  have h47 : cString (47 :: path) = 47 :: cString path := by simp [cString]
  rw [directory, cString_append hd, h47, base_append hne, names_append, walk_append,
    Option.bind_eq_some_iff] at h
  obtain ⟨q, hq, _⟩ := h
  refine ⟨q, ?_⟩
  rw [directory, cString_eq_self hd, hq]

/-- The directory of a place is the one the names alone lead to. -/
theorem placeAt_eq_some {fs : Disk} {p : Path} {path : List Bytes} {q : Place}
    (h : placeAt fs p path = some q) : q.dir = lexical p path.dropLast ∧ q.dir ∈ fs := by
  unfold placeAt at h
  cases hw : walk fs p path.dropLast with
  | none => simp [hw] at h
  | some dir =>
    by_cases hd : enter dir (path.getLastD []) ∈ fs
    · simp only [hw, if_pos hd] at h
      cases h
    · simp only [hw, if_neg hd, Option.some.injEq] at h
      subst h
      exact walk_eq_some hw

theorem placeFrom_eq_some {fs : Disk} {p : Path} {path : Bytes} {q : Place}
    (h : placeFrom fs p path = some q) :
    q.dir = lexical p (names path).dropLast ∧ q.dir ∈ fs := placeAt_eq_some h

theorem openRead_eq_regular {fs : Disk} {cwd : Path} {path : Bytes} {q : Place}
    {content : Bytes} (h : openRead fs cwd path = .regular q content) :
    place fs cwd path = some q ∧ file fs q = some content := by
  unfold openRead at h
  cases hd : directory fs cwd path with
  | some p => simp [hd] at h
  | none =>
    cases hp : place fs cwd path with
    | none => simp [hd, hp] at h
    | some r =>
      cases hf : file fs r with
      | none => simp [hd, hp, hf] at h
      | some bytes =>
        simp only [hd, hp, hf, Opened.regular.injEq] at h
        obtain ⟨rfl, rfl⟩ := h
        exact ⟨rfl, hf⟩

theorem write_of_place_eq_none {fs : Disk} {cwd : Path} {path : Bytes}
    (h : place fs cwd path = none) (content : Bytes) (w : Storing) :
    write fs cwd path content w = fs := by
  simp [write, h]

theorem write_of_place {fs : Disk} {cwd : Path} {path : Bytes} {q : Place}
    (h : place fs cwd path = some q) (content : Bytes) (w : Storing) :
    write fs cwd path content w = put fs q content w := by
  rw [write, h]

theorem lookup_put {fs : Disk} {q : Place} {d : Dir} (hl : fs.lookup q.dir = some d)
    (content : Bytes) (w : Storing) :
    (put fs q content w).lookup q.dir = some (store d q.name content w) := by
  simp [put, hl]

theorem lookup_put_ne (fs : Disk) {q : Place} {p : Path} (hp : p ≠ q.dir) (content : Bytes)
    (w : Storing) : (put fs q content w).lookup p = fs.lookup p := by
  cases hl : fs.lookup q.dir with
  | none => simp [put, hl]
  | some d => simp [put, hl, lookup_insert_ne hp]

theorem file_put_ne (fs : Disk) {q r : Place} (hr : r ≠ q) (content : Bytes) (w : Storing) :
    file (put fs q content w) r = file fs r := by
  obtain ⟨dir, name⟩ := r
  by_cases hdir : dir = q.dir
  · subst dir
    have hname : name ≠ q.name := fun hn => hr (by rw [hn])
    cases hl : fs.lookup q.dir with
    | none => simp [put, hl]
    | some d => simp [file, lookup_put hl, hl, lookup_store_ne content w hname]
  · rw [file, lookup_put_ne fs hdir]
    rfl

theorem file_put_stored {fs : Disk} {q : Place} (hmem : q.dir ∈ fs) (content : Bytes) :
    file (put fs q content .stored) q = some content := by
  obtain ⟨d, hd⟩ := Option.isSome_iff_exists.mp (AList.lookup_isSome.mpr hmem)
  rw [file, lookup_put hd]
  simp [store]

theorem lookup_write {fs : Disk} {cwd : Path} {path : Bytes} {q : Place} {d : Dir}
    (h : place fs cwd path = some q) (hl : fs.lookup q.dir = some d) (content : Bytes)
    (w : Storing) :
    (write fs cwd path content w).lookup q.dir = some (store d q.name content w) := by
  rw [write_of_place h, lookup_put hl]

theorem lookup_write_ne {fs : Disk} {cwd : Path} {path : Bytes} {q : Place} {p : Path}
    (h : place fs cwd path = some q) (hp : p ≠ q.dir) (content : Bytes) (w : Storing) :
    (write fs cwd path content w).lookup p = fs.lookup p := by
  rw [write_of_place h, lookup_put_ne fs hp]

/-- Writing changes no other file. -/
theorem file_write_ne {fs : Disk} {cwd : Path} {path : Bytes} {q r : Place}
    (h : place fs cwd path = some q) (hr : r ≠ q) (content : Bytes) (w : Storing) :
    file (write fs cwd path content w) r = file fs r := by
  rw [write_of_place h, file_put_ne fs hr]

theorem file_write {fs : Disk} {cwd : Path} {path : Bytes} {q : Place} {d : Dir}
    (h : place fs cwd path = some q) (hl : fs.lookup q.dir = some d) (content : Bytes)
    (w : Storing) :
    file (write fs cwd path content w) q = (store d q.name content w).lookup q.name := by
  rw [file, lookup_write h hl, Option.bind_some]

/-- A path that names a place can be written. -/
theorem file_write_stored {fs : Disk} {cwd : Path} {path : Bytes} {q : Place}
    (h : place fs cwd path = some q) (content : Bytes) :
    file (write fs cwd path content .stored) q = some content := by
  rw [write_of_place h, file_put_stored (placeFrom_eq_some h).2]

theorem mem_put {fs : Disk} {q : Place} {content : Bytes} {w : Storing} {p : Path} :
    p ∈ put fs q content w ↔ p ∈ fs := by
  cases hl : fs.lookup q.dir with
  | none => simp [put, hl]
  | some d =>
    have hmem : q.dir ∈ fs := AList.lookup_isSome.mp (by simp [hl])
    simp only [put, hl, AList.mem_insert]
    exact ⟨fun hp => hp.elim (fun he => he ▸ hmem) id, Or.inr⟩

/-- Writing creates and removes no directory. -/
theorem mem_write {fs : Disk} {cwd : Path} {path content : Bytes} {w : Storing} {p : Path} :
    p ∈ write fs cwd path content w ↔ p ∈ fs := by
  cases h : place fs cwd path with
  | none => rw [write_of_place_eq_none h]
  | some q => rw [write_of_place h, mem_put]

theorem walk_congr {fs fs' : Disk} (h : ∀ p, p ∈ fs' ↔ p ∈ fs) (p : Path) (path : List Bytes) :
    walk fs' p path = walk fs p path := by
  induction path generalizing p with
  | nil => simp [walk, h]
  | cons name rest ih => simp [walk, h, ih]

@[simp] theorem directory_write (fs : Disk) (cwd : Path) (path content : Bytes) (w : Storing)
    (path' : Bytes) :
    directory (write fs cwd path content w) cwd path' = directory fs cwd path' :=
  walk_congr (fun _ => mem_write) _ _

/-- What is in a file after storing a content, given what was in it before. -/
def left (content : Bytes) (old : Option Bytes) : Storing → Option Bytes
  | .stored => some content
  | .notOpened => old
  | .cut n => some (content.take n)

theorem file_write_left {fs : Disk} {cwd : Path} {path : Bytes} {q : Place}
    (h : place fs cwd path = some q) (content : Bytes) (w : Storing) :
    file (write fs cwd path content w) q = left content (file fs q) w := by
  have hmem : q.dir ∈ fs := (placeFrom_eq_some h).2
  obtain ⟨d, hd⟩ := Option.isSome_iff_exists.mp (AList.lookup_isSome.mpr hmem)
  rw [file_write h hd]
  cases w with
  | stored => simp [store, left]
  | notOpened => simp [store, left, file, hd]
  | cut n => simp [store, left]

/-- All files are as they were. -/
def SameFiles (fs fs' : Disk) : Prop := ∀ q, file fs' q = file fs q

/-- Nothing is changed by writing just where nothing can be opened, or where what is left is what
was there. -/
theorem sameFiles_write_iff (fs : Disk) (cwd : Path) (path content : Bytes) (w : Storing) :
    SameFiles fs (write fs cwd path content w) ↔
      ∀ q, place fs cwd path = some q → left content (file fs q) w = file fs q := by
  constructor
  · intro h q hq
    rw [← file_write_left hq, h q]
  · intro h q
    cases hp : place fs cwd path with
    | none => rw [write_of_place_eq_none hp]
    | some r =>
      by_cases hr : q = r
      · subst hr
        rw [file_write_left hp, h q hp]
      · exact file_write_ne hp hr content w

/-! ### Names of files in a directory -/

/- A name without separators that is none of the special ones. -/
structure OneName (name : Bytes) : Prop where
  zero : 0 ∉ name
  names : FileSystem.names name = [name]
  enter : ∀ p, FileSystem.enter p name = p ++ [name]

theorem directory_name {d name : Bytes} (h : OneName name) (hne : d ≠ []) (hd : 0 ∉ d) {fs : Disk}
    {cwd p : Path} (hp : directory fs cwd d = some p) :
    directory fs cwd (d ++ 47 :: name) = if p ++ [name] ∈ fs then some (p ++ [name]) else none := by
  have hmem : p ∈ fs := (walk_eq_some hp).2
  have h47 : cString (47 :: name) = 47 :: name := by
    apply cString_eq_self
    simpa using h.zero
  rw [directory, cString_append hd, h47, base_append hne, names_append, h.names, walk_append]
  rw [directory, cString_eq_self hd] at hp
  rw [hp, Option.bind_some]
  simp [walk, hmem, h.enter]

theorem place_name {d name : Bytes} (h : OneName name) (hne : d ≠ []) (hd : 0 ∉ d) {fs : Disk}
    {cwd p : Path} (hp : directory fs cwd d = some p) :
    place fs cwd (d ++ 47 :: name) = if p ++ [name] ∈ fs then none else some ⟨p, name⟩ := by
  have hmem : p ∈ fs := (walk_eq_some hp).2
  rw [place_append hne hd, hp, Option.bind_some, cString_eq_self h.zero, placeFrom, h.names,
    placeAt]
  simp [walk, hmem, h.enter]

theorem openRead_name {d name : Bytes} (h : OneName name) (hne : d ≠ []) (hd : 0 ∉ d) {fs : Disk}
    {cwd p : Path} (hp : directory fs cwd d = some p) :
    openRead fs cwd (d ++ 47 :: name) =
      if p ++ [name] ∈ fs then .directory
      else match file fs ⟨p, name⟩ with
        | none => .failed
        | some content => .regular ⟨p, name⟩ content := by
  have hdirectory := directory_name h hne hd hp
  have hplace := place_name h hne hd hp
  unfold openRead
  by_cases hdir : p ++ [name] ∈ fs
  · simp [hdirectory, hdir]
  · cases hfile : file fs ⟨p, name⟩ with
    | none => simp [hdirectory, hplace, hdir, hfile]
    | some content => simp [hdirectory, hplace, hdir, hfile]

end OpcUaTestTool.FileSystem
