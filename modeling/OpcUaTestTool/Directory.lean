import OpcUaTestTool.FiniteMap
import OpcUaTestTool.Numerals

/-! Directories of regular files, and the way an output file stream fills one of their files:
opening creates or truncates it, and the bytes arrive in pieces of any size. -/
namespace OpcUaTestTool.Directory
open FiniteMap Numerals

abbrev Dir := Map Bytes Bytes

/-- Opening for output creates the file or cuts it to length zero. -/
def openTruncate (d : Dir) (name : Bytes) : Dir := d.insert name []

def append (d : Dir) (name piece : Bytes) : Dir :=
  match d.lookup name with
  | none => d
  | some written => d.insert name (written ++ piece)

/-- What becomes of a file written through one stream: all of it is stored, the file cannot be
opened, or the bytes stop after the first `n` (no space left). -/
inductive Storing where
  | stored
  | notOpened
  | cut (n : Nat)
  deriving DecidableEq

/-- Open, write the whole content, close. -/
def store (d : Dir) (name content : Bytes) : Storing → Dir
  | .stored => d.insert name content
  | .notOpened => d
  | .cut n => d.insert name (content.take n)

/-- Reading a file through `std::ifstream`; a missing one reads as no bytes. -/
def read (d : Dir) (name : Bytes) : Bytes := (d.lookup name).getD []

theorem lookup_openTruncate_ne {d : Dir} {name other : Bytes} (h : other ≠ name) :
    (openTruncate d name).lookup other = d.lookup other :=
  lookup_insert_ne h

theorem lookup_store_ne {d : Dir} {name other : Bytes} (content : Bytes) (w : Storing)
    (h : other ≠ name) : (store d name content w).lookup other = d.lookup other := by
  cases w with
  | stored => exact lookup_insert_ne h
  | notOpened => rfl
  | cut n => exact lookup_insert_ne h

theorem lookup_append_ne {d : Dir} {name other : Bytes} (piece : Bytes) (h : other ≠ name) :
    (append d name piece).lookup other = d.lookup other := by
  unfold append
  cases d.lookup name with
  | none => rfl
  | some written => exact lookup_insert_ne h

theorem lookup_append {d : Dir} {name written : Bytes} (piece : Bytes)
    (h : d.lookup name = some written) :
    (append d name piece).lookup name = some (written ++ piece) := by
  simp [append, h]

theorem keys_append_perm (d : Dir) (name piece : Bytes) :
    (append d name piece).keys.Perm d.keys := by
  unfold append
  cases h : d.lookup name with
  | none => exact List.Perm.refl _
  | some written => exact keys_insert_perm _ h

/-- A file that is being written: its name and the bytes still to come. -/
structure Stream where
  name : Bytes
  rest : Bytes
  deriving DecidableEq

/-- The next `n` bytes reach the file. -/
def Stream.write (f : Stream) (n : Nat) (d : Dir) : Stream × Dir :=
  ({ f with rest := f.rest.drop n }, append d f.name (f.rest.take n))

/-- What the file holds and what is still to come make up the content. -/
def Stream.Fills (f : Stream) (d : Dir) (content : Bytes) : Prop :=
  ∃ written, d.lookup f.name = some written ∧ written ++ f.rest = content

theorem Stream.fills_open (d : Dir) (name content : Bytes) :
    (Stream.mk name content).Fills (openTruncate d name) content :=
  ⟨[], by simp [openTruncate], rfl⟩

theorem Stream.Fills.write {f : Stream} {d : Dir} {content : Bytes} (h : f.Fills d content)
    (n : Nat) : (f.write n d).1.Fills (f.write n d).2 content := by
  obtain ⟨written, hw, hc⟩ := h
  exact ⟨written ++ f.rest.take n, lookup_append _ hw, by
    rw [List.append_assoc]
    simpa [Stream.write] using hc⟩

/-- Once nothing is left to write, the file is complete. -/
theorem Stream.Fills.complete {f : Stream} {d : Dir} {content : Bytes} (h : f.Fills d content)
    (hr : f.rest = []) : d.lookup f.name = some content := by
  obtain ⟨written, hw, hc⟩ := h
  rw [hw, ← hc, hr, List.append_nil]

end OpcUaTestTool.Directory
