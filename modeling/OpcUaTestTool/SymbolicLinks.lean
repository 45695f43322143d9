import OpcUaTestTool.FileSystem

/-! Trees of directories with symbolic links. A link on the way is replaced by what it stands for,
and the way goes on from there, until only directories are left. -/
namespace OpcUaTestTool.SymbolicLinks
open FiniteMap Numerals Directory FileSystem

/- A tree, and the text of each link by the place of the link. -/
structure LinkedDisk where
  disk : Disk
  links : Map Place Bytes := ∅

/-- As many links as the kernel follows. -/
def maxLinks : Nat := 40

/- The names still to follow from a directory, and how many links may be met. -/
structure Way where
  left : Nat
  dir : Path
  rest : List Bytes
  deriving DecidableEq

/-- The first link on a way: its directory, its text, and the names behind it. -/
def nextLink (t : LinkedDisk) : Path → List Bytes → Option (Path × Bytes × List Bytes)
  | _, [] => none
  | p, name :: rest =>
    if p ∈ t.disk then
      match t.links.lookup ⟨p, name⟩ with
      | some target => some (p, target, rest)
      | none => nextLink t (enter p name) rest
    else none

/-- The way with its links replaced, unless there are too many. -/
def expand (t : LinkedDisk) : Nat → Path → List Bytes → Option Way
  | 0, p, path =>
    match nextLink t p path with
    | none => some ⟨0, p, path⟩
    | some _ => none
  | n + 1, p, path =>
    match nextLink t p path with
    | none => some ⟨n + 1, p, path⟩
    | some (dir, target, rest) =>
      expand t n (base dir (cString target)) (names (cString target) ++ rest)

/-- From where a path starts. -/
def way (t : LinkedDisk) (cwd : Path) (path : Bytes) : Option Way :=
  expand t maxLinks (base cwd (cString path)) (names (cString path))

/-- The directory a path names, and how many more links could be met behind it. -/
def arrive (t : LinkedDisk) (cwd : Path) (path : Bytes) : Option (Nat × Path) :=
  (way t cwd path).bind fun w => (walk t.disk w.dir w.rest).map fun q => (w.left, q)

def directory (t : LinkedDisk) (cwd : Path) (path : Bytes) : Option Path :=
  (arrive t cwd path).map Prod.snd

def place (t : LinkedDisk) (cwd : Path) (path : Bytes) : Option Place :=
  (way t cwd path).bind fun w => placeAt t.disk w.dir w.rest

def file (t : LinkedDisk) (q : Place) : Option Bytes := FileSystem.file t.disk q

def openRead (t : LinkedDisk) (cwd : Path) (path : Bytes) : Opened :=
  match directory t cwd path with
  | some _ => .directory
  | none =>
    match place t cwd path with
    | none => .failed
    | some q =>
      match file t q with
      | none => .failed
      | some content => .regular q content

/-- Open for output, write, close. -/
def write (t : LinkedDisk) (cwd : Path) (path content : Bytes) (w : Storing) : LinkedDisk :=
  match place t cwd path with
  | none => t
  | some q => { t with disk := put t.disk q content w }

variable {t : LinkedDisk} {cwd p q : Path}

/-! ### Ways -/

theorem nextLink_append_of_some {a : List Bytes} {dir : Path} {target : Bytes} {rest : List Bytes}
    (h : nextLink t p a = some (dir, target, rest)) (b : List Bytes) :
    nextLink t p (a ++ b) = some (dir, target, rest ++ b) := by
  induction a generalizing p with
  | nil => cases h
  | cons name a ih =>
    by_cases hp : p ∈ t.disk
    · cases hl : t.links.lookup ⟨p, name⟩ with
      | some target' =>
        simp only [nextLink, if_pos hp, hl, Option.some.injEq, Prod.mk.injEq] at h
        obtain ⟨rfl, rfl, rfl⟩ := h
        simp only [List.cons_append, nextLink, if_pos hp, hl]
      | none =>
        simp only [nextLink, if_pos hp, hl] at h
        simpa only [List.cons_append, nextLink, if_pos hp, hl] using ih h
    · simp only [nextLink, if_neg hp] at h
      cases h

/-- Behind a way without links, the next link is met from the directory it leads to. -/
theorem nextLink_append_of_walk {a : List Bytes} (h : nextLink t p a = none)
    (hw : walk t.disk p a = some q) (b : List Bytes) :
    nextLink t p (a ++ b) = nextLink t q b := by
  induction a generalizing p with
  | nil =>
    obtain ⟨rfl, _⟩ := walk_eq_some hw
    rfl
  | cons name a ih =>
    by_cases hp : p ∈ t.disk
    · cases hl : t.links.lookup ⟨p, name⟩ with
      | some target => simp [nextLink, hp, hl] at h
      | none =>
        simp only [nextLink, if_pos hp, hl] at h
        simp only [walk, if_pos hp] at hw
        simpa only [List.cons_append, nextLink, if_pos hp, hl] using ih h hw
    · simp [walk, hp] at hw

theorem nextLink_append_of_blocked {a : List Bytes} (h : nextLink t p a = none)
    (hw : walk t.disk p a = none) (b : List Bytes) : nextLink t p (a ++ b) = none := by
  induction a generalizing p with
  | nil =>
    have hp : p ∉ t.disk := fun hp => by simp [walk, hp] at hw
    cases b with
    | nil => rfl
    | cons name b => simp [nextLink, hp]
  | cons name a ih =>
    by_cases hp : p ∈ t.disk
    · cases hl : t.links.lookup ⟨p, name⟩ with
      | some target => simp [nextLink, hp, hl] at h
      | none =>
        simp only [nextLink, if_pos hp, hl] at h
        simp only [walk, if_pos hp] at hw
        simpa only [List.cons_append, nextLink, if_pos hp, hl] using ih h hw
    · simp [nextLink, hp]

theorem expand_of_none (n : Nat) {path : List Bytes} (h : nextLink t p path = none) :
    expand t n p path = some ⟨n, p, path⟩ := by
  cases n with
  | zero => rw [expand, h]
  | succ n => rw [expand, h]

/-- An expanded way has no links. -/
theorem nextLink_of_expand {n : Nat} {path : List Bytes} {w : Way}
    (h : expand t n p path = some w) : nextLink t w.dir w.rest = none := by
  induction n generalizing p path with
  | zero =>
    cases hl : nextLink t p path with
    | none =>
      simp only [expand, hl, Option.some.injEq] at h
      exact h ▸ hl
    | some link => simp [expand, hl] at h
  | succ n ih =>
    cases hl : nextLink t p path with
    | none =>
      simp only [expand, hl, Option.some.injEq] at h
      exact h ▸ hl
    | some link =>
      simp only [expand, hl] at h
      exact ih h

/-- The links of a way are replaced from its front. -/
theorem expand_append (n : Nat) (a b : List Bytes) :
    expand t n p (a ++ b) = (expand t n p a).bind fun w => expand t w.left w.dir (w.rest ++ b) := by
  induction n generalizing p a with
  | zero =>
    cases hl : nextLink t p a with
    | none => rw [expand_of_none 0 hl, Option.bind_some]
    | some link =>
      have happend := nextLink_append_of_some hl b
      simp only [expand, hl, happend, Option.bind_none]
  | succ n ih =>
    cases hl : nextLink t p a with
    | none => rw [expand_of_none (n + 1) hl, Option.bind_some]
    | some link =>
      have happend := nextLink_append_of_some hl b
      simp only [expand, hl, happend]
      rw [← List.append_assoc, ih]

/-- Behind a directory the way goes on from this directory. -/
theorem placeAt_expand_append {n : Nat} {a b : List Bytes} (h : nextLink t p a = none)
    (hb : b ≠ []) :
    ((expand t n p (a ++ b)).bind fun w => placeAt t.disk w.dir w.rest) =
      (walk t.disk p a).bind fun q =>
        (expand t n q b).bind fun w => placeAt t.disk w.dir w.rest := by
  cases hw : walk t.disk p a with
  | none =>
    rw [expand_of_none n (nextLink_append_of_blocked h hw b), Option.bind_some,
      placeAt_append _ _ _ hb, hw]
    rfl
  | some q =>
    have happend := nextLink_append_of_walk h hw b
    rw [Option.bind_some]
    cases hl : nextLink t q b with
    | none =>
      rw [expand_of_none n (happend.trans hl), expand_of_none n hl, Option.bind_some,
        Option.bind_some, placeAt_append _ _ _ hb, hw, Option.bind_some]
    | some link =>
      have hsame : expand t n p (a ++ b) = expand t n q b := by
        cases n with
        | zero => simp only [expand, happend, hl]
        | succ n => simp only [expand, happend, hl]
      rw [hsame]

/-- A path below a directory names what its rest names from there. -/
theorem place_append {d : Bytes} (hne : d ≠ []) (hd : 0 ∉ d) (t : LinkedDisk) (cwd : Path)
    (path : Bytes) :
    place t cwd (d ++ 47 :: path) = (arrive t cwd d).bind fun a =>
      (expand t a.1 a.2 (names (cString path))).bind fun w => placeAt t.disk w.dir w.rest := by
  have h47 : cString (47 :: path) = 47 :: cString path := by simp [cString]
  rw [place, way, cString_append hd, h47, base_append hne, names_append, expand_append, arrive, way,
    cString_eq_self hd, Option.bind_assoc, Option.bind_assoc]
  refine Option.bind_congr fun w hw => ?_
  rw [placeAt_expand_append (nextLink_of_expand hw) (names_ne_nil _)]
  cases walk t.disk w.dir w.rest with
  | none => rfl
  | some q => rfl

/-! ### Files -/

theorem openRead_eq_regular {path content : Bytes} {r : Place}
    (h : openRead t cwd path = .regular r content) : place t cwd path = some r := by
  unfold openRead at h
  cases hd : directory t cwd path with
  | some p => simp [hd] at h
  | none =>
    cases hp : place t cwd path with
    | none => simp [hd, hp] at h
    | some r' =>
      cases hf : file t r' with
      | none => simp [hd, hp, hf] at h
      | some bytes =>
        simp only [hd, hp, hf, Opened.regular.injEq] at h
        rw [h.1]

theorem write_of_place_eq_none {path : Bytes} (h : place t cwd path = none) (content : Bytes)
    (w : Storing) : write t cwd path content w = t := by
  rw [write, h]

/-- Writing changes no other file. -/
theorem file_write_ne {path : Bytes} {r r' : Place} (h : place t cwd path = some r) (hne : r' ≠ r)
    (content : Bytes) (w : Storing) : file (write t cwd path content w) r' = file t r' := by
  rw [write, h]
  exact file_put_ne t.disk hne content w

/-- A path that names a place can be written. -/
theorem file_write_stored {path : Bytes} {r : Place} (h : place t cwd path = some r)
    (content : Bytes) : file (write t cwd path content .stored) r = some content := by
  obtain ⟨w, _, hw⟩ := Option.bind_eq_some_iff.mp h
  rw [write, h]
  exact file_put_stored (placeAt_eq_some hw).2 content

/-! ### Trees without links -/

section
variable {fs : Disk}

theorem nextLink_of_noLinks (p : Path) (path : List Bytes) : nextLink ⟨fs, ∅⟩ p path = none := by
  induction path generalizing p with
  | nil => rfl
  | cons name rest ih =>
    have hl : (∅ : Map Place Bytes).lookup ⟨p, name⟩ = none := rfl
    simp only [nextLink, hl, ih, ite_self]

theorem way_of_noLinks (cwd : Path) (path : Bytes) : way ⟨fs, ∅⟩ cwd path =
    some ⟨maxLinks, base cwd (cString path), names (cString path)⟩ :=
  expand_of_none _ (nextLink_of_noLinks _ _)

/-- Without links the two kinds of trees are the same. -/
theorem place_of_noLinks (cwd : Path) (path : Bytes) :
    place ⟨fs, ∅⟩ cwd path = FileSystem.place fs cwd path := by
  rw [place, way_of_noLinks]
  rfl

theorem directory_of_noLinks (cwd : Path) (path : Bytes) :
    directory ⟨fs, ∅⟩ cwd path = FileSystem.directory fs cwd path := by
  rw [directory, arrive, way_of_noLinks, Option.bind_some, Option.map_map, FileSystem.directory]
  exact Option.map_id'

theorem openRead_of_noLinks (cwd : Path) (path : Bytes) :
    openRead ⟨fs, ∅⟩ cwd path = FileSystem.openRead fs cwd path := by
  rw [openRead, directory_of_noLinks, place_of_noLinks]
  rfl

theorem write_of_noLinks (cwd : Path) (path content : Bytes) (w : Storing) :
    write ⟨fs, ∅⟩ cwd path content w = ⟨FileSystem.write fs cwd path content w, ∅⟩ := by
  rw [write, place_of_noLinks, FileSystem.write]
  cases FileSystem.place fs cwd path with
  | none => rfl
  | some q => rfl

end

end OpcUaTestTool.SymbolicLinks
