import CommaStyle.Proofs.Strict.Documents

namespace CommaStyle

open Text

/-!
# Strict checking does not fail

Every step of strict checking does what the step without it does, as long as the text is not too
long.

* `Strict.exempt?_eq`, `Strict.leaders?_eq` — the walks over tokens stay in the document;
* `Strict.violations?_eq` — the gaps next to commas are there to be looked at;
* `Strict.warnings?_eq` — every violation has its warning and its edit;
* `Strict.edit?_eq_applyAll?` — edits are made strictly just if they can be made at all;
* `Strict.exists_checkUp` — all steps together.
-/

namespace Strict

section

variable {d : Document}

/-! ### Exempt commas and line leaders -/

theorem exists_kind? {i : Nat} (h : i < d.size) : ∃ kind, d.kind? i = some kind := by
  obtain ⟨x, hx⟩ := Document.exists_token? h
  exact ⟨x.kind, by rw [Document.kind?, hx]; rfl⟩

/-- A walk over comments stays in the document if it is short enough. -/
theorem significantFrom?_eq {count i : Nat} (h : i + count ≤ d.size) :
    significantFrom? d count i = some (d.significantFrom? count i) := by
  induction count generalizing i with
  | zero => rfl
  | succ count ih =>
    obtain ⟨kind, hkind⟩ := exists_kind? (d := d) (i := i) (by omega)
    have hnext := ih (i := i + 1) (by omega)
    cases hcomment : kind.isComment <;>
      simp [significantFrom?, Document.significantFrom?, hkind, hcomment, hnext]

/-- What the walk finds is within its reach. -/
theorem significantFrom?_lt {count i j : Nat} (h : d.significantFrom? count i = some j) :
    j < i + count := by
  induction count generalizing i with
  | zero => cases h
  | succ count ih =>
    rw [Document.significantFrom?] at h
    split at h
    · have := ih h
      omega
    · obtain rfl := Option.some.inj h
      omega

/-- The next significant token can always be looked for. -/
theorem nextSignificant?_eq (d : Document) (i : Nat) :
    nextSignificant? d i = some (d.nextSignificant? i) := by
  by_cases h : i + 1 ≤ d.size
  · exact significantFrom?_eq (by omega)
  · -- Behind the last token there is none to look at.
    have hcount : d.size - (i + 1) = 0 := by omega
    rw [nextSignificant?, Document.nextSignificant?, hcount]
    rfl

/-- The next significant token is in the document. -/
theorem nextSignificant?_lt {i j : Nat} (h : d.nextSignificant? i = some j) : j < d.size := by
  have hlt := significantFrom?_lt h
  by_cases hi : i + 1 ≤ d.size
  · omega
  · have hcount : d.size - (i + 1) = 0 := by omega
    rw [Document.nextSignificant?, hcount] at h
    cases h

/-- The walk along the entries of a list literal never leaves the document. -/
theorem holeCommasFrom?_eq (d : Document) (before : Nat) (entries : List (Option Element)) :
    holeCommasFrom? d before entries = some (d.holeCommasFrom before entries) := by
  induction entries generalizing before with
  | nil => rfl
  | cons e entries ih =>
    cases e with
    | some e =>
      rw [holeCommasFrom?, Document.holeCommasFrom, nextSignificant?_eq]
      cases hnext : d.nextSignificant? e.last with
      | none => rfl
      | some next => exact ih next
    | none =>
      rw [holeCommasFrom?, Document.holeCommasFrom, nextSignificant?_eq]
      cases hnext : d.nextSignificant? before with
      | none => rfl
      | some next =>
        obtain ⟨kind, hkind⟩ := exists_kind? (nextSignificant?_lt hnext)
        by_cases hcomma : kind = .comma <;>
          simp [hkind, ih next, hcomma, Document.isComma]

/-- The commas behind holes are found in any document, also for list literals that do not fit it. -/
theorem exempt?_eq (d : Document) (lists : List ListNode) :
    exempt? d lists = some (d.exempt lists) := by
  have hcommas := List.mapM_eq_some_map (l := lists) (g := d.holeCommas) fun l _ =>
    holeCommasFrom?_eq d l.opening l.elements
  simp only [exempt?, hcommas, Option.bind_eq_bind, Option.bind_some, ← List.flatMap_def]
  rfl

/-- Every token can be asked for its lines. -/
theorem leaders?_eq (d : Document) : leaders? d = some d.leaders := by
  refine List.foldlM_eq_some_foldl (fun i hi leaders => ?_) []
  obtain ⟨x, hx⟩ := Document.exists_token? (List.mem_range.mp hi)
  simp [hx]

theorem isLeading?_eq (leaders : Leaders) {i : Nat} {x : Token} (hx : d.token? i = some x) :
    isLeading? d leaders i = some (d.isLeading leaders i) := by
  simp [isLeading?, Document.isLeading, hx]

theorem onSameLine?_eq {i j : Nat} {x y : Token} (hx : d.token? i = some x)
    (hy : d.token? j = some y) : d.onSameLine? i j = some (x.onSameLine y) := by
  simp [Document.onSameLine?, hx, hy]

end

/-! ### Violations -/

section

variable {t : Text} {i : Nat} {x y : Token}

/-- The gap between two neighbours is there, and holds white space just if the second is spaced. -/
theorem spaced?_eq (hx : (Document.ofText t).token? i = some x)
    (hy : (Document.ofText t).token? (i + 1) = some y) :
    (Document.ofText t).spaced? i (i + 1) = some y.isSpaced := by
  have hfollows := Document.follows_of_token? hx hy
  obtain ⟨before, rest, hstands⟩ := Document.exists_stands hy
  have hstart : y.offset - Text.width y.blanks = Text.width before := by
    rw [hstands.offset, width_append, Nat.add_sub_cancel]
  have hslice : slice? (Document.ofText t).text y.gap = some y.blanks := by
    show slice? t ⟨y.offset - Text.width y.blanks, Text.width y.blanks⟩ = some y.blanks
    rw [hstart, hstands.text]
    exact slice?_of_append _ _ _
  have hany : y.blanks.any isBlank = y.isSpaced := by
    cases hblanks : y.blanks with
    | nil => simp [Token.isSpaced, hblanks]
    | cons c blanks =>
      have hc := hstands.blanks c (by simp [hblanks])
      simp [Token.isSpaced, hblanks, hc]
  simp [Document.spaced?, Document.gap?_eq_gap hx hy hfollows, hslice, hany]

/-- The gap in front of a comma can be looked at. -/
theorem violationBefore?_eq (s : Settings) (exempt : List Nat)
    (hy : (Document.ofText t).token? i = some y) :
    violationBefore? (Document.ofText t) s exempt i =
      some ((Document.ofText t).violationBefore? s exempt i) := by
  cases i with
  | zero => simp [violationBefore?, Document.violationBefore?, Document.prev?]
  | succ i =>
    obtain ⟨x, hx⟩ := Document.token?_of_succ hy
    have hspaced := spaced?_eq hx hy
    have hline := onSameLine?_eq hx hy
    simp only [violationBefore?, Document.violationBefore?, Document.prev?, Document.kind?, hx, hy,
      hline, hspaced, Option.map_some, Option.bind_eq_bind, Option.bind_some, Option.pure_def]
    -- The conditions are taken one by one on one side, and all at once on the other.
    grind

/-- The gap behind a comma can be looked at. -/
theorem violationAfter?_eq (s : Settings) (leaders : Leaders)
    (hx : (Document.ofText t).token? i = some x) :
    violationAfter? (Document.ofText t) s leaders i =
      some ((Document.ofText t).violationAfter? s leaders i) := by
  cases hy : (Document.ofText t).token? (i + 1) with
  | none =>
    simp [violationAfter?, Document.violationAfter?, Document.next?_of_token?_none hy]
  | some y =>
    have hspaced := spaced?_eq hx hy
    have hleading := isLeading?_eq leaders hx
    have hline := onSameLine?_eq hx hy
    simp only [violationAfter?, Document.violationAfter?, Document.next?_of_token? hy,
      Document.kind?, hx, hy, hline, hspaced, hleading, Option.map_some, Option.bind_eq_bind,
      Option.bind_some, Option.pure_def]
    grind

/-- **Strict violations.** The violations in a text are found without a failing step. -/
theorem violations?_eq (s : Settings) (t : Text) (exempt : List Nat) :
    violations? (Document.ofText t) s exempt (Document.ofText t).leaders =
      some ((Document.ofText t).violations s exempt) := by
  have hfound := List.mapM_eq_some_map (l := (Document.ofText t).ids.filter (Document.ofText t).isComma)
    (f := fun i => do
      let before ← violationBefore? (Document.ofText t) s exempt i
      let after ← violationAfter? (Document.ofText t) s (Document.ofText t).leaders i
      return before.toList ++ after.toList)
    (g := fun i => ((Document.ofText t).violationBefore? s exempt i).toList ++
      ((Document.ofText t).violationAfter? s (Document.ofText t).leaders i).toList) (by
      intro i hi
      obtain ⟨x, hx⟩ := Document.exists_token? (List.mem_range.mp (List.mem_of_mem_filter hi))
      simp [violationBefore?_eq s exempt hx, violationAfter?_eq s _ hx])
  rw [violations?, hfound]
  simp only [Option.bind_eq_bind, Option.bind_some, ← List.flatMap_def]
  rfl

/-- **Strict warnings.** Every violation in a text has its warning. -/
theorem warnings?_eq (s : Settings) (t : Text) :
    (Lint.violations s t).mapM (warning? (Document.ofText t) s) =
      some ((Document.ofText t).warningsOf s (Lint.violations s t)) := by
  have hwarning : ∀ v ∈ Lint.violations s t,
      warning? (Document.ofText t) s v = v.diagnostic? (Document.ofText t) s := by
    intro v hv
    obtain ⟨comma, diagnostic, hcomma, -, -⟩ := Document.exists_diagnostic? hv
    obtain ⟨before, rest, hstands⟩ := Document.exists_stands hcomma
    have hslice : slice? (Document.ofText t).text comma.span = some comma.text := by
      show slice? t ⟨comma.offset, Text.width comma.text⟩ = some comma.text
      rw [hstands.offset, hstands.text, ← List.append_assoc]
      exact slice?_of_append _ _ _
    simp [warning?, hcomma, hslice]
  rw [List.mapM_eq_some_filterMap, List.filterMap_congr hwarning]
  · rfl
  · intro v hv
    obtain ⟨comma, diagnostic, -, hdiagnostic, -⟩ := Document.exists_diagnostic? hv
    exact ⟨_, (hwarning v hv).trans hdiagnostic⟩

end

/-! ### Edits -/

/-- Nothing can be copied from an offset inside a character or past the end on, whatever the edits. -/
theorem editFrom?_of_cut? {t : Text} {copied : Nat} (h : cut? copied t = none) (edits : List Edit) :
    editFrom? t copied edits = none := by
  have hslice : ∀ stop, (Span.between? copied stop).bind (slice? t) = none := by
    intro stop
    rw [Span.between?]
    split
    · simp [slice?, h]
    · rfl
  induction edits with
  | nil =>
    simp only [editFrom?, Option.bind_eq_bind, ← Option.bind_assoc (x := Span.between? copied _),
      hslice]
    cases width? t <;> rfl
  | cons e edits ih =>
    rw [editFrom?]
    split
    · exact ih
    · simp only [Option.bind_eq_bind, ← Option.bind_assoc, hslice]
      rfl

/-- Without edits, the rest of the text is copied. -/
theorem editFrom?_nil {t front rest : Text} (ht : t = front ++ rest)
    (hfit : Text.width t ≤ maxOffset) : editFrom? t (Text.width front) [] = some (rest, 0) := by
  have hwidth : Text.width t = Text.width front + Text.width rest := by rw [ht, width_append]
  have hslice : slice? t ⟨Text.width front, Text.width rest⟩ = some rest := by
    have hall := slice?_of_append front rest []
    rwa [List.append_nil, ← ht] at hall
  simp [editFrom?, width?_of_le hfit, Span.between?, hwidth, hslice]

/-- Edits of a text of which a front part has been copied are made, or fail, as those that are chosen
    of them do in what is left. The strict run does not look at the end of an edit when it makes it,
    but copies from there later on. -/
theorem editFrom?_eq {t front rest : Text} (ht : t = front ++ rest) (hfit : Text.width t ≤ maxOffset)
    (edits : List Edit) :
    editFrom? t (Text.width front) edits =
      (Edit.splice? (Text.width front) (Edit.choose (Text.width front) edits) rest).map
        fun edited => (edited, (Edit.choose (Text.width front) edits).length) := by
  induction edits generalizing front rest with
  | nil => rw [editFrom?_nil ht hfit, Edit.choose, Edit.splice?, Option.map_some, List.length_nil]
  | cons e edits ih =>
    by_cases hstart : e.span.start < Text.width front
    · rw [editFrom?, Edit.choose, if_pos hstart, if_pos hstart]
      exact ih ht
    · have hle := Nat.not_lt.mp hstart
      have hslice : slice? t ⟨Text.width front, e.span.start - Text.width front⟩ =
          (cut? (e.span.start - Text.width front) rest).map Prod.fst := by
        rw [ht, slice?_width_append]
      rw [editFrom?, Edit.choose, if_neg hstart, if_neg hstart, Span.between?, if_pos hle,
        Edit.splice?]
      cases hkept : cut? (e.span.start - Text.width front) rest with
      | none => simp [hslice, hkept]
      | some pair =>
        obtain ⟨kept, rest'⟩ := pair
        obtain ⟨rfl, hkept'⟩ := cut?_eq_some_iff.mp hkept
        -- The edit ends between characters just if its span can be cut off what follows.
        have hstop : e.span.stop = Text.width (front ++ kept) + e.span.length := by
          rw [Span.stop, width_append]
          omega
        have hcut := cut?_width_add (front ++ kept) rest' e.span.length
        rw [← hstop, List.append_assoc, ← ht] at hcut
        cases hold : cut? e.span.length rest' with
        | none =>
          rw [hold] at hcut
          simp [hold, editFrom?_of_cut? hcut]
        | some pair =>
          obtain ⟨old, rest''⟩ := pair
          obtain ⟨rfl, hold'⟩ := cut?_eq_some_iff.mp hold
          have hmore := ih (show t = front ++ kept ++ old ++ rest'' by rw [ht]; simp)
          rw [width_append, hold', ← hstop] at hmore
          cases hmade : Edit.splice? e.span.stop (Edit.choose e.span.stop edits) rest'' <;>
            simp [hslice, hkept, hold, hmore, hmade]

/-- Edits are made strictly, or fail strictly, as they are or do otherwise. -/
theorem edit?_eq_applyAll? {t : Text} (hfit : Text.width t ≤ maxOffset) (edits : List Edit) :
    edit? t edits = Edit.applyAll? t edits :=
  editFrom?_eq (List.nil_append t).symm hfit (stableSort Edit.le edits)

/-- Edits that can be made are made strictly. -/
theorem edit?_eq {t edited : Text} {made : Nat} {edits : List Edit}
    (hfit : Text.width t ≤ maxOffset) (h : Edit.applyAll? t edits = some (edited, made)) :
    edit? t edits = some (edited, made) :=
  (edit?_eq_applyAll? hfit edits).trans h

/-! ### All of it -/

/-- **Strict checking does not fail.** A text that is not too long is checked and mended without a
    failing step, whatever the settings, with the outcome that there is without the guards. -/
theorem exists_checkUp (s : Settings) (t : Text) (hfit : Text.width t ≤ maxOffset) :
    let d := Document.ofText t
    ∃ description, d.outline.describe? d = some description ∧
      checkUp? s t = some
        { document := d
          outline := d.outline
          description := description
          exempt := d.exempt d.outline.lists
          leaders := d.leaders
          violations := d.violations s (d.exempt d.outline.lists)
          diagnostics := Lint.diagnostics s t
          mended := Lint.mend s t } := by
  intro d
  obtain ⟨description, hdescription⟩ : ∃ description, d.outline.describe? d = some description :=
    exists_describe? t
  refine ⟨description, hdescription, ?_⟩
  have hdocument : document? t = some d := document?_eq hfit
  have houtline : outline? d = some d.outline := outline?_eq hfit
  have hviolations : violations? d s (d.exempt d.outline.lists) d.leaders =
      some (d.violations s (d.exempt d.outline.lists)) := violations?_eq s t _
  have hwarnings : (d.violations s (d.exempt d.outline.lists)).mapM (warning? d s) =
      some (d.warnings s d.outline.lists) := warnings?_eq s t
  have hfindings : d.outline.errors.map Diagnostic.ofError ++ d.warnings s d.outline.lists =
      Lint.findings s t := rfl
  have hedits : edit? t ((Lint.findings s t).filterMap (·.edit)) = some (Lint.mend s t) := by
    rw [Lint.filterMap_edit_findings, Lint.mend_eq]
    exact edit?_eq hfit (Lint.applyAll?_selected (List.Subperm.refl _))
  simp only [checkUp?, hdocument, houtline, hdescription, exempt?_eq, leaders?_eq, hviolations,
    hwarnings, hfindings, hedits, Option.bind_eq_bind, Option.bind_some]
  rfl

/-- A list literal that is not closed, with white space of two bytes in front of a comma and a hole
    behind it. -/
theorem exists_checkUp_unclosed :
    let t := ['[', 'a', '\u00a0', ',', ',', 'b']
    Text.width t ≤ maxOffset ∧ ∃ c, checkUp? .standard t = some c ∧
      c.mended = (['[', 'a', ',', ',', ' ', 'b'], 2) ∧ c.exempt = [3] := by
  intro t
  have hfit : Text.width t ≤ maxOffset := by decide
  obtain ⟨description, -, hcheck⟩ := exists_checkUp .standard t hfit
  have hmended : Lint.mend .standard t = (['[', 'a', ',', ',', ' ', 'b'], 2) := by decide
  have hexempt : (Document.ofText t).exempt (Document.ofText t).outline.lists = [3] := by decide
  refine ⟨hfit, _, hcheck, ?_, ?_⟩
  · rw [hmended]
  · rw [hexempt]

end Strict

end CommaStyle
