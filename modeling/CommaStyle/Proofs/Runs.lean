import CommaStyle.CommandLine.Run
import CommaStyle.Proofs.Disks
import CommaStyle.Proofs.Mending
import CommaStyle.Proofs.Sorting
import Mathlib.Algebra.Ring.Nat

namespace CommaStyle

open Document

/-!
# Runs that mend files

A run goes through its paths from first to last, and each file that it has passed holds its mended
text. A path may come twice and two paths may lead to one file, which is then passed with nothing left
to mend.

* `Disk.Mended` says how a disk differs from what it was when some files have been mended. It holds of
  one file that is checked (`Request.mended_checkFile`) and can be composed (`Disk.Mended.trans`);
* `Request.checkFiles_cases` — a run mends all its files, or those in front of the first that cannot
  be read;
* `Request.checkFiles_of_settled` — a run through mended files writes nothing;
* `Request.mending_run` — what two runs in a row do to a disk, and what they return.
-/

namespace Lint

variable {s : Settings} {t : Text}

/-- A mended text has nothing more to mend. -/
theorem mend_mend (s : Settings) (t : Text) : mend s (mend s t).1 = ((mend s t).1, 0) :=
  mend_of_violations_eq_nil (violations_mend s t)

/-- The number of syntax errors of a text. -/
def errorCount (t : Text) : Nat := (ofText t).outline.errors.length

/-- Mending neither removes syntax errors nor adds any. -/
theorem errorCount_mend (s : Settings) (t : Text) : errorCount (mend s t).1 = errorCount t := by
  rw [errorCount, errorCount, mend_eq, outline_errors, outline_errors, List.length_map,
    List.length_map, ← (toggles_selectedEdit? s t (edits s t)).alike.anchors_eq]

/-- All that there is to say about a text without violations are its syntax errors. -/
theorem perm_diagnostics (h : violations s t = []) :
    (diagnostics s t).Perm ((ofText t).outline.errors.map Diagnostic.ofError) := by
  have hwarnings : (ofText t).warnings s (ofText t).outline.lists = [] := by
    show (violations s t).filterMap _ = []
    rw [h]
    rfl
  have hfindings : findings s t = (ofText t).outline.errors.map Diagnostic.ofError := by
    rw [findings, hwarnings, List.append_nil]
  rw [diagnostics, Diagnostic.sort, hfindings]
  exact perm_stableSort _ _

/-- A text without violations has as many diagnostics as syntax errors. -/
theorem length_diagnostics (h : violations s t = []) : (diagnostics s t).length = errorCount t := by
  rw [(perm_diagnostics h).length_eq, List.length_map, errorCount]

/-- The diagnostics of a text without violations are errors. -/
theorem severity_of_mem_diagnostics (h : violations s t = []) {x : Diagnostic}
    (hx : x ∈ diagnostics s t) : x.severity = .error := by
  obtain ⟨e, -, rfl⟩ := List.mem_map.mp ((perm_diagnostics h).mem_iff.mp hx)
  rfl

end Lint

namespace Disk

/-- The number of syntax errors in the file that a path leads to. -/
def errorCount (d : Disk) (path : String) : Nat :=
  match d.read path with
  | .ok t => Lint.errorCount t
  | .error _ => 0

/-- The syntax errors at a path are those of the text that is read there. -/
theorem errorCount_of_read {d : Disk} {path : String} {t : Text} (h : d.read path = .ok t) :
    d.errorCount path = Lint.errorCount t := by
  rw [errorCount, h]

/-! ### Mended files -/

/-- Whether the files that some paths lead to have been mended, and nothing else has changed. -/
structure Mended (s : Settings) (d : Disk) (paths : List String) (e : Disk) : Prop where
  /-- All paths lead where they led before. -/
  locate : ∀ q, e.locate q = d.locate q
  /-- The listed paths could be read, and hold the mended texts. -/
  listed : ∀ q ∈ paths, ∃ t, d.read q = .ok t ∧ e.read q = .ok (Lint.mend s t).1
  /-- At all locations that no listed path leads to stands what stood there before. -/
  others : ∀ l, (∀ q ∈ paths, d.locate q ≠ .ok l) → e.content? l = d.content? l

namespace Mended

variable {s : Settings} {d e f : Disk} {paths paths' : List String}

/-- Every path is read as before, or as the mended text of what it was. -/
theorem read_cases (h : Mended s d paths e) (q : String) :
    e.read q = d.read q ∨ ∃ t, d.read q = .ok t ∧ e.read q = .ok (Lint.mend s t).1 := by
  by_cases hlisted : ∃ p ∈ paths, d.locate p = d.locate q
  · -- A listed path leads to the same place, so that both are read alike.
    obtain ⟨p, hp, hlocate⟩ := hlisted
    have hlocate' : e.locate p = e.locate q := by rw [h.locate, h.locate, hlocate]
    rw [← read_eq_of_locate_eq hlocate, ← read_eq_of_locate_eq hlocate']
    exact .inr (h.listed p hp)
  · refine .inl (read_congr (h.locate q) ?_)
    intro l hl
    apply h.others
    intro p hp hpl
    exact hlisted ⟨p, hp, hpl.trans hl.symm⟩

/-- Mending makes no path readable, and none unreadable. -/
theorem read_eq_error_iff (h : Mended s d paths e) {q : String} {fault : AccessFault} :
    e.read q = .error fault ↔ d.read q = .error fault := by
  rcases h.read_cases q with hsame | ⟨t, hd, he⟩
  · rw [hsame]
  · rw [hd, he]
    simp

/-- Mending changes no number of syntax errors. -/
theorem errorCount_eq (h : Mended s d paths e) : e.errorCount = d.errorCount := by
  funext q
  rcases h.read_cases q with hsame | ⟨t, hd, he⟩
  · rw [errorCount, errorCount, hsame]
  · rw [errorCount_of_read hd, errorCount_of_read he, Lint.errorCount_mend]

/-- A file in which there is something to mend has not been mended yet. -/
theorem read_of_count_pos (h : Mended s d paths e) {q : String} {t : Text} (hread : e.read q = .ok t)
    (hcount : 0 < (Lint.mend s t).2) : d.read q = .ok t := by
  rcases h.read_cases q with hsame | ⟨u, -, he⟩
  · rw [← hsame, hread]
  · obtain rfl : t = (Lint.mend s u).1 := Except.ok.inj (hread.symm.trans he)
    rw [Lint.mend_mend] at hcount
    exact absurd hcount (Nat.lt_irrefl 0)

/-- Without paths, nothing is mended. -/
theorem refl (s : Settings) (d : Disk) : Mended s d [] d :=
  ⟨fun _ => rfl, by simp, fun _ _ => rfl⟩

/-- Mending some files and then others mends all of them, and those that come twice are mended
    once. -/
theorem trans (h : Mended s d paths e) (h' : Mended s e paths' f) :
    Mended s d (paths ++ paths') f := by
  refine ⟨fun q => (h'.locate q).trans (h.locate q), ?_, ?_⟩
  · intro q hq
    rcases List.mem_append.mp hq with hq | hq
    · obtain ⟨t, hd, he⟩ := h.listed q hq
      rcases h'.read_cases q with hsame | ⟨u, he', hf⟩
      · exact ⟨t, hd, hsame.trans he⟩
      · obtain rfl : u = (Lint.mend s t).1 := Except.ok.inj (he'.symm.trans he)
        rw [Lint.mend_mend] at hf
        exact ⟨t, hd, hf⟩
    · obtain ⟨t, he, hf⟩ := h'.listed q hq
      rcases h.read_cases q with hsame | ⟨u, hd, he'⟩
      · exact ⟨t, hsame ▸ he, hf⟩
      · obtain rfl : t = (Lint.mend s u).1 := Except.ok.inj (he.symm.trans he')
        rw [Lint.mend_mend] at hf
        exact ⟨u, hd, hf⟩
  · intro l hl
    have hfirst := h.others l fun q hq => hl q (List.mem_append_left _ hq)
    have hsecond := h'.others l fun q hq => by
      rw [h.locate]
      exact hl q (List.mem_append_right _ hq)
    rw [hsecond, hfirst]

end Mended

/-- Writing the mended text mends a file. -/
theorem mended_write {s : Settings} {d : Disk} {path : String} {t : Text} (h : d.read path = .ok t) :
    Mended s d [path] (d.write path (Lint.mend s t).1) := by
  refine ⟨(sameTree_write h _).locate_eq, ?_, ?_⟩
  · intro q hq
    obtain rfl := List.mem_singleton.mp hq
    exact ⟨t, h, read_write h _⟩
  · intro l hl
    obtain ⟨location, hlocate, hcontent⟩ := read_eq_ok_iff.mp h
    have hne : l ≠ location := by
      rintro rfl
      exact hl path (List.mem_singleton.mpr rfl) hlocate
    rw [content?_write hlocate hcontent, if_neg hne]

end Disk

namespace Request

open Disk

variable {s : Settings} {mend : Bool} {disk : Disk} {path : String} {paths : List String} {t : Text}
  {fault : AccessFault}

/-! ### One file -/

/-- A file with something to mend is written, and what remains are its syntax errors. -/
theorem checkFile_of_count_pos (h : disk.read path = .ok t) (hcount : 0 < (Lint.mend s t).2) :
    let one := checkFile s true disk path
    one.disk = disk.write path (Lint.mend s t).1 ∧ one.written = [(path, (Lint.mend s t).1)] ∧
      one.result = .ok (Lint.errorCount t) := by
  have hlength := Lint.length_diagnostics (Lint.violations_mend s t)
  rw [Lint.errorCount_mend] at hlength
  simp [checkFile, h, hcount, hlength]

/-- A file with nothing to mend is left alone. -/
theorem checkFile_of_count_eq_zero (h : disk.read path = .ok t) (hcount : (Lint.mend s t).2 = 0) :
    let one := checkFile s true disk path
    one.disk = disk ∧ one.written = [] ∧ one.result = .ok (Lint.errorCount t) := by
  have hviolations := Lint.violations_mend s t
  rw [Lint.mend_of_count_eq_zero hcount] at hviolations
  simp [checkFile, h, hcount, Lint.length_diagnostics hviolations]

/-- Checking a file that can be read gives the number of its syntax errors. -/
theorem result_checkFile (h : disk.read path = .ok t) :
    (checkFile s true disk path).result = .ok (Lint.errorCount t) := by
  rcases Nat.eq_zero_or_pos (Lint.mend s t).2 with hcount | hcount
  · exact (checkFile_of_count_eq_zero h hcount).2.2
  · exact (checkFile_of_count_pos h hcount).2.2

/-- Only the mended text of a file is written, and only if an edit was made. -/
theorem mem_written_checkFile (h : disk.read path = .ok t) {w : String × Text}
    (hw : w ∈ (checkFile s true disk path).written) :
    w = (path, (Lint.mend s t).1) ∧ 0 < (Lint.mend s t).2 := by
  rcases Nat.eq_zero_or_pos (Lint.mend s t).2 with hcount | hcount
  · rw [(checkFile_of_count_eq_zero h hcount).2.1] at hw
    cases hw
  · rw [(checkFile_of_count_pos h hcount).2.1] at hw
    exact ⟨List.mem_singleton.mp hw, hcount⟩

/-- A file that is checked is mended. -/
theorem mended_checkFile (h : disk.read path = .ok t) :
    Mended s disk [path] (checkFile s true disk path).disk := by
  rcases Nat.eq_zero_or_pos (Lint.mend s t).2 with hcount | hcount
  · rw [(checkFile_of_count_eq_zero h hcount).1]
    refine ⟨fun _ => rfl, ?_, fun _ _ => rfl⟩
    intro q hq
    obtain rfl := List.mem_singleton.mp hq
    refine ⟨t, h, ?_⟩
    rw [Lint.mend_of_count_eq_zero hcount, h]
  · rw [(checkFile_of_count_pos h hcount).1]
    exact mended_write h

/-- A disk changes only by what is written to it. -/
theorem disk_checkFile (s : Settings) (mend : Bool) (disk : Disk) (path : String) :
    let one := checkFile s mend disk path
    one.disk = one.written.foldl (fun d w => d.write w.1 w.2) disk := by
  unfold checkFile
  cases disk.read path with
  | error fault => rfl
  | ok t =>
    cases mend with
    | false => rfl
    | true =>
      simp only [if_true]
      split <;> rfl

/-- Without mending, checking a file writes nothing. -/
theorem written_checkFile_false (s : Settings) (disk : Disk) (path : String) :
    (checkFile s false disk path).written = [] := by
  unfold checkFile
  cases disk.read path <;> rfl

/-! ### Many files -/

/-- A run stops at a path that cannot be read. -/
theorem checkFiles_of_error (h : disk.read path = .error fault) (paths : List String) :
    checkFiles s mend disk (path :: paths) = ⟨disk, [], [], .error (.unreadable path fault)⟩ := by
  simp [checkFiles, checkFile, h]

/-- Behind a file that was checked, a run goes on with the disk that it left. -/
theorem checkFiles_of_result {count : Nat} (h : (checkFile s mend disk path).result = .ok count)
    (paths : List String) :
    let one := checkFile s mend disk path
    let others := checkFiles s mend one.disk paths
    checkFiles s mend disk (path :: paths) =
      ⟨others.disk, one.written ++ others.written, one.printed ++ others.printed,
        others.result.map (count + ·)⟩ := by
  simp [checkFiles, h]

/-- A run changes a disk only by what it writes. -/
theorem disk_checkFiles (s : Settings) (mend : Bool) (disk : Disk) (paths : List String) :
    let run := checkFiles s mend disk paths
    run.disk = run.written.foldl (fun d w => d.write w.1 w.2) disk := by
  induction paths generalizing disk with
  | nil => rfl
  | cons path paths ih =>
    have hone := disk_checkFile s mend disk path
    cases hresult : (checkFile s mend disk path).result with
    | error failure => simpa [checkFiles, hresult] using hone
    | ok count =>
      simp only [checkFiles_of_result hresult, List.foldl_append, ← hone]
      exact ih _

/-- Without mending, a run writes nothing. -/
theorem written_checkFiles_false (s : Settings) (disk : Disk) (paths : List String) :
    (checkFiles s false disk paths).written = [] := by
  induction paths generalizing disk with
  | nil => rfl
  | cons path paths ih =>
    have hone := written_checkFile_false s disk path
    cases hresult : (checkFile s false disk path).result with
    | error failure => simpa [checkFiles, hresult] using hone
    | ok count => rw [checkFiles_of_result hresult, hone, ih, List.append_nil]

/-- A run mends all its files and counts their syntax errors, or it mends those in front of the first
    that cannot be read. -/
theorem checkFiles_cases (s : Settings) (disk : Disk) (paths : List String) :
    let run := checkFiles s true disk paths
    (∃ before path after fault, paths = before ++ path :: after ∧
      disk.read path = .error fault ∧ run.result = .error (.unreadable path fault) ∧
      disk.Mended s before run.disk) ∨
    (run.result = .ok (paths.map disk.errorCount).sum ∧ disk.Mended s paths run.disk) := by
  induction paths generalizing disk with
  | nil => exact .inr ⟨rfl, Mended.refl s disk⟩
  | cons path paths ih =>
    cases hread : disk.read path with
    | error fault =>
      rw [checkFiles_of_error hread]
      exact .inl ⟨[], path, paths, fault, rfl, hread, rfl, Mended.refl s disk⟩
    | ok t =>
      have hone := mended_checkFile (s := s) hread
      rw [checkFiles_of_result (result_checkFile hread)]
      -- The other files are met on a disk that differs, but in nothing that counts.
      rcases ih (checkFile s true disk path).disk with
        ⟨before, unread, after, fault, rfl, hfault, hresult, hmended⟩ | ⟨hresult, hmended⟩
      · refine .inl ⟨path :: before, unread, after, fault, rfl, hone.read_eq_error_iff.mp hfault, ?_,
          hone.trans hmended⟩
        rw [hresult]
        rfl
      · refine .inr ⟨?_, hone.trans hmended⟩
        rw [hresult, hone.errorCount_eq, List.map_cons, List.sum_cons, errorCount_of_read hread]
        rfl

/-- Only files in which there was something to mend are written, and what is written is the mended
    text. -/
theorem mem_written_checkFiles {w : String × Text} (hw : w ∈ (checkFiles s true disk paths).written) :
    w.1 ∈ paths ∧ ∃ t, disk.read w.1 = .ok t ∧ 0 < (Lint.mend s t).2 ∧ w.2 = (Lint.mend s t).1 := by
  induction paths generalizing disk with
  | nil => cases hw
  | cons path paths ih =>
    cases hread : disk.read path with
    | error fault =>
      rw [checkFiles_of_error hread] at hw
      cases hw
    | ok t =>
      rw [checkFiles_of_result (result_checkFile hread)] at hw
      rcases List.mem_append.mp hw with hw | hw
      · obtain ⟨rfl, hcount⟩ := mem_written_checkFile hread hw
        exact ⟨List.mem_cons_self, t, hread, hcount, rfl⟩
      · obtain ⟨hmem, u, hu, hcount, htext⟩ := ih hw
        exact ⟨List.mem_cons_of_mem _ hmem, u, (mended_checkFile hread).read_of_count_pos hu hcount,
          hcount, htext⟩

/-- A run through files with nothing to mend does what it does behind them, apart from the count of
    their syntax errors. -/
theorem checkFiles_of_settled {before : List String}
    (h : ∀ q ∈ before, ∃ t, disk.read q = .ok t ∧ (Lint.mend s t).2 = 0) (after : List String) :
    let run := checkFiles s true disk (before ++ after)
    let behind := checkFiles s true disk after
    run.disk = behind.disk ∧ run.written = behind.written ∧
      run.result = behind.result.map ((before.map disk.errorCount).sum + ·) := by
  induction before with
  | nil =>
    refine ⟨rfl, rfl, ?_⟩
    cases hresult : (checkFiles s true disk after).result <;> simp [hresult, Except.map]
  | cons path before ih =>
    obtain ⟨t, hread, hcount⟩ := h path List.mem_cons_self
    obtain ⟨hdisk, hwritten, hresult⟩ := checkFile_of_count_eq_zero hread hcount
    obtain ⟨ihdisk, ihwritten, ihresult⟩ := ih fun q hq => h q (List.mem_cons_of_mem _ hq)
    rw [List.cons_append, checkFiles_of_result hresult, hdisk, hwritten]
    refine ⟨ihdisk, ihwritten, ?_⟩
    rw [ihresult, List.map_cons, List.sum_cons, errorCount_of_read hread]
    cases (checkFiles s true disk after).result <;> simp [Except.map, Nat.add_assoc]

/-- A second run finds nothing to mend, and returns what the first did. -/
theorem checkFiles_again (s : Settings) (disk : Disk) (paths : List String) :
    let run := checkFiles s true disk paths
    let again := checkFiles s true run.disk paths
    again.disk = run.disk ∧ again.written = [] ∧ again.result = run.result := by
  intro run again
  -- The files in front of the place where the first run ended are settled.
  have hsettled : ∀ {before : List String}, disk.Mended s before run.disk →
      ∀ q ∈ before, ∃ t, run.disk.read q = .ok t ∧ (Lint.mend s t).2 = 0 := by
    intro before hmended q hq
    obtain ⟨t, -, hread⟩ := hmended.listed q hq
    exact ⟨_, hread, congrArg Prod.snd (Lint.mend_mend s t)⟩
  rcases checkFiles_cases s disk paths with
    ⟨before, path, after, fault, rfl, hfault, hresult, hmended⟩ | ⟨hresult, hmended⟩
  · have hagain := checkFiles_of_settled (hsettled hmended) (path :: after)
    rw [checkFiles_of_error (hmended.read_eq_error_iff.mpr hfault)] at hagain
    exact ⟨hagain.1, hagain.2.1, hagain.2.2.trans hresult.symm⟩
  · have hagain := checkFiles_of_settled (hsettled hmended) []
    rw [List.append_nil, hmended.errorCount_eq] at hagain
    exact ⟨hagain.1, hagain.2.1, hagain.2.2.trans hresult.symm⟩

/-- **Runs that mend files.** A run stops at the first path that cannot be read, with the files in front
    of it mended and nothing else changed; or all paths can be read, the files that they lead to are
    mended, so that nothing but syntax errors is reported about them, nothing else has changed, and the
    run returns the number of syntax errors that the files had, path by path. Only files with something
    to mend are written. A second run writes nothing and returns the same, and a run that is not to mend
    writes nothing. Requests are runs of this kind. -/
theorem mending_run (s : Settings) (disk : Disk) (paths : List String) :
    let run := checkFiles s true disk paths
    let again := checkFiles s true run.disk paths
    let inspection := checkFiles s false disk paths
    ((∃ before path after fault, paths = before ++ path :: after ∧
        disk.read path = .error fault ∧ run.result = .error (.unreadable path fault) ∧
        disk.Mended s before run.disk) ∨
      (run.result = .ok (paths.map disk.errorCount).sum ∧ disk.Mended s paths run.disk ∧
        ∀ q ∈ paths, ∃ t, run.disk.read q = .ok t ∧
          ∀ x ∈ Lint.diagnostics s t, x.severity = .error)) ∧
    (run.disk = run.written.foldl (fun d w => d.write w.1 w.2) disk ∧
      ∀ w ∈ run.written, w.1 ∈ paths ∧
        ∃ t, disk.read w.1 = .ok t ∧ 0 < (Lint.mend s t).2 ∧ w.2 = (Lint.mend s t).1) ∧
    (again.disk = run.disk ∧ again.written = [] ∧ again.result = run.result) ∧
    (inspection.disk = disk ∧ inspection.written = []) ∧
    ∀ (r : Request) (d : Disk), r.readSettings d = .ok s → r.paths = paths →
      r.run d = checkFiles s (r.has .mend) d paths := by
  intro run again inspection
  refine ⟨?_, ⟨disk_checkFiles s true disk paths, fun w => mem_written_checkFiles⟩,
    checkFiles_again s disk paths, ?_, ?_⟩
  · rcases checkFiles_cases s disk paths with hstopped | ⟨hresult, hmended⟩
    · exact .inl hstopped
    · refine .inr ⟨hresult, hmended, ?_⟩
      intro q hq
      obtain ⟨t, -, hread⟩ := hmended.listed q hq
      exact ⟨_, hread, fun x => Lint.severity_of_mem_diagnostics (Lint.violations_mend s t)⟩
  · have hwritten := written_checkFiles_false s disk paths
    have hdisk := disk_checkFiles s false disk paths
    simp only [hwritten, List.foldl_nil] at hdisk
    exact ⟨hdisk, hwritten⟩
  · rintro r d hsettings rfl
    rw [Request.run, hsettings]

end Request

end CommaStyle
