import CommaStyle.CommandLine.Disk
import CommaStyle.Proofs.Collections

namespace CommaStyle

/-!
# Writing to a disk

Giving a file another text changes what stands at one location and nothing else. All paths lead where
they led before, since neither the folders nor the locations in use change.

* `Disk.content?_write` — what stands at a location after a text was written;
* `Disk.SameTree` — two disks have the same folders and the same locations in use, as a disk has before
  and after it was written to (`Disk.sameTree_write`), and `Disk.SameTree.locate_eq` — paths lead to the
  same locations on both.
-/

namespace Disk

variable {d e : Disk} {path : String} {location : Location} {t old : Text}

/-! ### Reading -/

/-- A path is read as the text at the location that it leads to. -/
theorem read_eq_ok_iff :
    d.read path = .ok t ↔ ∃ location, d.locate path = .ok location ∧
      d.content? location = some (.text t) := by
  unfold read
  cases hlocate : d.locate path with
  | error fault => simp [bind, Except.bind]
  | ok location =>
    rcases hcontent : d.content? location with _ | ⟨u⟩ | b | _ <;>
      simp [bind, Except.bind, pure, Except.pure, hcontent]

/-- Two disks on which a path leads to the same location read it alike if the same stands there. -/
theorem read_congr (hlocate : e.locate path = d.locate path)
    (hcontent : ∀ location, d.locate path = .ok location →
      e.content? location = d.content? location) : e.read path = d.read path := by
  unfold read
  rw [hlocate]
  cases hpath : d.locate path with
  | error fault => rfl
  | ok location => simp only [bind, Except.bind, hcontent location hpath]

/-- Paths to the same location are read alike. -/
theorem read_eq_of_locate_eq {path' : String} (h : d.locate path = d.locate path') :
    d.read path = d.read path' := by
  unfold read
  rw [h]

/-! ### Folders -/

/-- Whether two disks have the same working folder, the same folders and the same locations in use. -/
structure SameTree (d e : Disk) : Prop where
  here : e.here = d.here
  folder : ∀ location, e.content? location = some .folder ↔ d.content? location = some .folder
  unused : ∀ location, e.content? location = none ↔ d.content? location = none

/-- The parts of a path lead to the same location on disks with the same tree. -/
theorem SameTree.follow_eq (h : d.SameTree e) (location : Location) (parts : List Text) :
    e.follow location parts = d.follow location parts := by
  induction parts generalizing location with
  | nil => rfl
  | cons part parts ih =>
    simp only [follow, bne_iff_ne, ne_eq, Option.isNone_iff_eq_none, h.folder, h.unused, ih]

/-- A path leads to the same location, or fails in the same way, on disks with the same tree. -/
theorem SameTree.locate_eq (h : d.SameTree e) (path : String) : e.locate path = d.locate path := by
  unfold locate
  simp only [h.follow_eq, h.here]

/-! ### Writing -/

/-- Writing a text makes no location a folder that was none before, and takes no folder away. -/
theorem isPassed_write (d : Disk) (path : String) (t : Text) (l : Location) :
    (d.write path t).isPassed l = d.isPassed l := by
  unfold write
  cases d.locate path with
  | error fault => rfl
  | ok location =>
    simp only [isPassed, List.any_map]
    congr 2
    funext entry
    by_cases hentry : entry.1 = location <;> simp [hentry]

/-- What is written to a file is what stands at its location then; all else stands as it did. -/
theorem content?_write (hlocate : d.locate path = .ok location)
    (hold : d.content? location = some (.text old)) (l : Location) :
    (d.write path t).content? l = if l = location then some (.text t) else d.content? l := by
  have hentries : (d.write path t).entries =
      d.entries.map fun e => if e.1 = location then (location, .text t) else e := by
    rw [write, hlocate]
  -- A location that holds a text is listed, since those that are not listed are folders.
  have hlisted : d.entries.lookup location = some (.text old) := by
    unfold content? at hold
    cases hlookup : d.entries.lookup location with
    | none =>
      simp only [hlookup] at hold
      split at hold <;> simp at hold
    | some content =>
      simp only [hlookup, Option.some.injEq] at hold
      rw [hold]
  unfold content?
  rw [hentries, List.lookup_map_replace, isPassed_write]
  by_cases hl : l = location
  · simp [hl, hlisted]
  · simp [hl]

/-- Writing over a text that can be read keeps the tree. -/
theorem sameTree_write (hread : d.read path = .ok old) (t : Text) : d.SameTree (d.write path t) := by
  obtain ⟨location, hlocate, hold⟩ := read_eq_ok_iff.mp hread
  refine ⟨?_, ?_, ?_⟩
  · rw [write, hlocate]
  · intro l
    rw [content?_write hlocate hold]
    by_cases hl : l = location <;> simp [hl, hold]
  · intro l
    rw [content?_write hlocate hold]
    by_cases hl : l = location <;> simp [hl, hold]

/-- What was written is read again. -/
theorem read_write (hread : d.read path = .ok old) (t : Text) : (d.write path t).read path = .ok t := by
  obtain ⟨location, hlocate, hold⟩ := read_eq_ok_iff.mp hread
  refine read_eq_ok_iff.mpr ⟨location, ?_, ?_⟩
  · rw [(sameTree_write hread t).locate_eq, hlocate]
  · rw [content?_write hlocate hold, if_pos rfl]

end Disk

end CommaStyle
