import CommaStyle.Proofs.Grammar.Arrangement
import CommaStyle.Proofs.Sorting
import CommaStyle.Proofs.Surroundings

namespace CommaStyle

open Grammar

/-!
# The order of diagnostics

What is said about a text comes from three places, each of which goes through the text from front to
back. Sorting by place merges the three.

* `Document.pairwise_unclosed`, `Document.pairwise_misread`, `Document.pairwise_warnings` — the tokens
  without a terminator, the errors of the grammar and the warnings come in order;
* `Document.map_some_warnings` — there is one warning for each violation;
* `Lint.diagnostics_merged` — the diagnostics are the three of them, merged by place.
-/

namespace Document

variable {t : Text}

/-! ### Errors -/

/-- Where tokens stand in order, so do their spans; the end of the text comes last. -/
theorem start_spanOrEnd_mono {i j : Nat} (h : i ≤ j) :
    ((ofText t).spanOrEnd i).start ≤ ((ofText t).spanOrEnd j).start := by
  unfold spanOrEnd
  cases hx : (ofText t).token? i with
  | none =>
    rw [token?_eq_none_iff] at hx
    rw [(token?_eq_none_iff _ j).mpr (Nat.le_trans hx h)]
  | some x =>
    cases hy : (ofText t).token? j with
    | none =>
      obtain ⟨before, rest, hstands⟩ := exists_stands hx
      show x.offset ≤ Text.width t
      have hwidth := congrArg Text.width hstands.text
      rw [hstands.offset, hwidth]
      simp only [Text.width_append]
      omega
    | some y =>
      rcases Nat.eq_or_lt_of_le h with rfl | hlt
      · rw [Option.some.inj (hx.symm.trans hy)]
      · have hstop := stop_le_start hlt hx hy
        exact Nat.le_trans (Nat.le_add_right _ _) hstop

/-- Tokens without a terminator are reported in order, each at another place. -/
theorem pairwise_unclosed (t : Text) :
    (ofText t).unclosed.Pairwise fun x y => x.span.start < y.span.start := by
  have hcovers := Lexer.covers_lexemes t
  have hordered : (ofText t).tokens.toList.Pairwise fun x y => x.span.start < y.span.start := by
    refine (List.pairwise_map.mp hcovers.ordered).imp_of_mem ?_
    intro x y hx _ hstop
    have hnonempty : x.span.start < x.span.stop :=
      hcovers.nonempty (Lexer.ofToken x) (List.mem_map_of_mem hx)
    exact Nat.lt_of_lt_of_le hnonempty hstop
  refine List.pairwise_filterMap.mpr (hordered.imp ?_)
  intro x y hlt a ha b hb
  obtain ⟨-, -, rfl⟩ := Option.map_eq_some_iff.mp ha
  obtain ⟨-, -, rfl⟩ := Option.map_eq_some_iff.mp hb
  exact hlt

/-- The errors of the grammar are reported in order. -/
theorem pairwise_misread (t : Text) :
    (ofText t).misread.Pairwise fun x y => x.span.start ≤ y.span.start := by
  refine List.pairwise_map.mpr ((pairwise_marks (ofText t).kinds).imp ?_)
  intro a b hle
  exact start_spanOrEnd_mono (significantAt_mono _ hle)

/-- An error of the grammar is reported at a token that is no comment, or at the end of the text. -/
theorem span_of_mem_misread {d : Document} {x : SyntaxError} (hx : x ∈ d.misread) :
    (∃ i ∈ d.significant, ∃ a, d.token? i = some a ∧ x.span = a.span) ∨
      x.span = Span.empty d.width := by
  obtain ⟨m, -, rfl⟩ := List.mem_map.mp hx
  by_cases hm : m.position < d.kinds.length
  · obtain ⟨a, ha⟩ := exists_token?_significantAt hm
    exact .inl ⟨_, significantAt_mem hm, a, ha, spanOrEnd_of_token? ha⟩
  · rw [significantAt_of_le (Nat.not_lt.mp hm), spanOrEnd_size]
    exact .inr rfl

/-! ### Warnings -/

/-- Every violation in a text has its warning. -/
theorem map_some_warnings (s : Settings) (t : Text) :
    ((ofText t).warnings s (ofText t).outline.lists).map some =
      (Lint.violations s t).map (·.diagnostic? (ofText t) s) := by
  show ((Lint.violations s t).filterMap _).map some = _
  rw [List.map_filterMap_some_eq_filter_map_isSome, List.filter_eq_self]
  intro x hx
  obtain ⟨v, hv, rfl⟩ := List.mem_map.mp hx
  obtain ⟨comma, diagnostic, -, hdiagnostic, -⟩ := exists_diagnostic? hv
  rw [hdiagnostic]
  rfl

/-- The warning about a violation stands at its comma. -/
theorem span_of_diagnostic? {d : Document} {s : Settings} {v : Violation} {w : Diagnostic}
    (h : v.diagnostic? d s = some w) : w.span = d.spanOrEnd v.comma := by
  unfold Violation.diagnostic? at h
  obtain ⟨message, -, h⟩ := Option.bind_eq_some_iff.mp h
  obtain ⟨edit, -, h⟩ := Option.bind_eq_some_iff.mp h
  obtain ⟨comma, hcomma, h⟩ := Option.bind_eq_some_iff.mp h
  obtain rfl := Option.some.inj h
  exact (spanOrEnd_of_token? hcomma).symm

/-- Warnings come in the order of their commas. -/
theorem pairwise_warnings (s : Settings) (t : Text) :
    ((ofText t).warnings s (ofText t).outline.lists).Pairwise
      fun x y => x.span.start ≤ y.span.start := by
  refine List.pairwise_filterMap.mpr ((pairwise_violations _ s _).imp ?_)
  intro v w hprecedes x hx y hy
  rw [span_of_diagnostic? hx, span_of_diagnostic? hy]
  apply start_spanOrEnd_mono
  rcases hprecedes with hlt | ⟨heq, -⟩
  · exact Nat.le_of_lt hlt
  · exact Nat.le_of_eq heq

end Document

/-! ### All diagnostics -/

/-- Whether a diagnostic may be listed ahead of another: it does not start behind it. -/
def Diagnostic.le (a b : Diagnostic) : Bool := a.span.start ≤ b.span.start

/-- Of two diagnostics, one may be taken ahead of the other. -/
theorem Diagnostic.le_total (a b : Diagnostic) (h : le a b = false) : le b a = true := by
  unfold le at h ⊢
  simp only [decide_eq_false_iff_not, decide_eq_true_eq] at h ⊢
  omega

/-- Taking one diagnostic ahead of another is transitive. -/
theorem Diagnostic.le_trans (a b c : Diagnostic) (hab : le a b = true) (hbc : le b c = true) :
    le a c = true := by
  unfold le at hab hbc ⊢
  simp only [decide_eq_true_eq] at hab hbc ⊢
  omega

namespace Lint

open Document

/-- Diagnostics whose starts come in order are in order. -/
theorem pairwise_le {l : List Diagnostic}
    (h : l.Pairwise fun x y => x.span.start ≤ y.span.start) : l.Pairwise (Diagnostic.le · ·) :=
  h.imp fun h => decide_eq_true h

/-- **The order of diagnostics.** Unclosed tokens are reported at places that follow one another, the
    errors of the grammar at places that do not go back, each a token that is no comment or the end of
    the text, and so are the warnings, of which there is one for each violation, comma by comma and the
    left side first. The diagnostics are these three, merged by place: none is lost and none comes
    twice, and at one place each keeps its order behind those of the former. -/
theorem diagnostics_merged (s : Settings) (t : Text) :
    let d := ofText t
    let unclosed := d.unclosed.map Diagnostic.ofError
    let misread := d.misread.map Diagnostic.ofError
    let warnings := d.warnings s d.outline.lists
    (d.outline.errors = d.unclosed ++ d.misread ∧
      d.unclosed.Pairwise (fun x y => x.span.start < y.span.start) ∧
      d.misread.Pairwise (fun x y => x.span.start ≤ y.span.start) ∧
      ∀ x ∈ d.misread, (∃ i ∈ d.significant, ∃ a, d.token? i = some a ∧ x.span = a.span) ∨
        x.span = Span.empty d.width) ∧
    (warnings.Pairwise (fun x y => x.span.start ≤ y.span.start) ∧
      warnings.map some = (violations s t).map (·.diagnostic? d s) ∧
      (violations s t).Pairwise Violation.Precedes) ∧
    diagnostics s t = (unclosed.merge misread Diagnostic.le).merge warnings Diagnostic.le ∧
    (diagnostics s t).Perm (unclosed ++ misread ++ warnings) ∧
    (diagnostics s t).Pairwise (fun x y => x.span.start ≤ y.span.start) ∧
    ∀ start, (diagnostics s t).filter (·.span.start == start) =
      unclosed.filter (·.span.start == start) ++ misread.filter (·.span.start == start) ++
        warnings.filter (·.span.start == start) := by
  intro d unclosed misread warnings
  have hfindings : findings s t = unclosed ++ misread ++ warnings := by
    show d.outline.errors.map Diagnostic.ofError ++ warnings = _
    rw [outline_errors_eq_append, List.map_append]
  have hdiagnostics : diagnostics s t = stableSort Diagnostic.le (unclosed ++ misread ++ warnings) := by
    rw [← hfindings]
    rfl
  have hunclosed : unclosed.Pairwise fun x y => x.span.start ≤ y.span.start :=
    List.pairwise_map.mpr ((pairwise_unclosed t).imp Nat.le_of_lt)
  have hmisread : misread.Pairwise fun x y => x.span.start ≤ y.span.start :=
    List.pairwise_map.mpr (pairwise_misread t)
  have hwarnings := pairwise_warnings s t
  refine ⟨⟨rfl, pairwise_unclosed t, pairwise_misread t, fun x => span_of_mem_misread⟩,
    ⟨hwarnings, map_some_warnings s t, pairwise_violations d s _⟩, ?_, ?_, ?_, ?_⟩
  · rw [hdiagnostics, stableSort_append Diagnostic.le_total Diagnostic.le_trans,
      stableSort_append Diagnostic.le_total Diagnostic.le_trans,
      stableSort_of_pairwise (pairwise_le hunclosed), stableSort_of_pairwise (pairwise_le hmisread),
      stableSort_of_pairwise (pairwise_le hwarnings)]
  · rw [hdiagnostics]
    exact perm_stableSort _ _
  · rw [hdiagnostics]
    refine (pairwise_stableSort Diagnostic.le_total Diagnostic.le_trans _).imp ?_
    intro x y h
    exact of_decide_eq_true h
  · intro start
    rw [hdiagnostics, filter_stableSort, List.filter_append, List.filter_append]
    intro a b ha hb
    exact decide_eq_true (Nat.le_of_eq ((beq_iff_eq.mp ha).trans (beq_iff_eq.mp hb).symm))

end Lint

end CommaStyle
