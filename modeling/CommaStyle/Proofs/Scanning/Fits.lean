import CommaStyle.Proofs.Scanning.Opaque
import CommaStyle.Proofs.Scanning.Runs

namespace CommaStyle.Lexeme

open Text

/-!
# Tokens in front of a text

`Lexeme.Fits` says that a lexeme is what is cut off in front of a text. Whether it does depends on
very little of that text:

* `fits_of_replacedBy` is the result for tokens that end by themselves;
* `fits_of_head?_eq` is the one for tokens that only a line feed or the end of the text has stopped;
* `fits_comma` — a comma depends on nothing.
-/

/-- Two characters in front of a text that may open something together. -/
theorem opensPair_of_replacedBy {c : Char} {t u : Text} (h : ReplacedBy t u)
    (ht : opensPair c t = false) : opensPair c u = false := by
  unfold opensPair at ht ⊢
  split
  · obtain ⟨t', rfl⟩ := h.cons (by simp [Graphic])
    exact ht
  · obtain ⟨t', rfl⟩ := h.cons (by simp [Graphic])
    exact ht
  · obtain ⟨t', rfl⟩ := h.cons (by simp [Graphic])
    exact ht
  · rfl

/-- Whether two characters open something together does not depend on what follows. -/
theorem opensPair_append {c d : Char} (t u : Text) :
    opensPair c (d :: t) = opensPair c (d :: u) := by
  unfold opensPair
  split <;> split <;> simp_all

/-- What is taken behind two opening characters. -/
theorem exists_body_of_pair {body : Text → Division} {c a b : Char} {t rest v : Text} {closed : Bool}
    (hu : t ++ rest = b :: v) (hd : ⟨c :: t, rest, closed⟩ = (body v).prepend [a, b]) :
    ∃ w, t = b :: w ∧ body (w ++ rest) = ⟨w, rest, closed⟩ := by
  rcases hbody : body v with ⟨w, r, x⟩
  simp only [hbody, Division.prepend, List.cons_append, List.nil_append, Division.mk.injEq,
    List.cons.injEq] at hd
  obtain ⟨⟨-, rfl⟩, rfl, rfl⟩ := hd
  obtain ⟨-, rfl⟩ := List.cons.inj hu
  exact ⟨w, rfl, hbody⟩

/-- A token that has ended by itself ends in the same way in front of another text. -/
theorem Cuts.replace {c : Char} {t rest rest' : Text} {k : Kind}
    (h : Cuts c (t ++ rest) k ⟨c :: t, rest, true⟩) (hk : k ≠ .lineComment)
    (hr : ReplacedBy rest rest') : Cuts c (t ++ rest') k ⟨c :: t, rest', true⟩ := by
  -- The rules fix the forms of the text and of the division, which are variables for the case
  -- split.
  generalize hu : t ++ rest = u at h
  generalize hd : (⟨c :: t, rest, true⟩ : Division) = d at h
  cases h with
  | punctuation hc =>
    obtain rfl : t = [] := by simpa using congrArg Division.taken hd
    exact .punctuation hc
  | lineComment hc => exact absurd rfl hk
  | blockComment hc =>
    obtain ⟨w, rfl, hbody⟩ := exists_body_of_pair hu hd
    subst hc
    -- What has its terminator does not depend on the text behind it.
    rw [commentBody_eq_upTo] at hbody
    have := Cuts.blockComment (t := w ++ rest') rfl
    rw [commentBody_eq_upTo, upTo_closed (by simp) hbody rest'] at this
    exact this
  | markup hc =>
    obtain ⟨w, rfl, hbody⟩ := exists_body_of_pair hu hd
    subst hc
    rw [markupBody_eq_upTo] at hbody
    have := Cuts.markup (t := w ++ rest') rfl
    rw [markupBody_eq_upTo, upTo_closed (by simp) hbody rest'] at this
    exact this
  | string hc =>
    subst hu
    have hquote : c ≠ '\\' := by rintro rfl; exact absurd hc (by decide)
    have hbody : stringBody c (t ++ rest) = ⟨t, rest, true⟩ := Division.prepend_eq_iff.mp hd.symm
    have hnew := stringBody_local hquote rest' (fun h => absurd h (by decide)) t hbody
    have := Cuts.string (t := t ++ rest') hc
    rwa [hnew] at this
  -- Numbers, names and operators end where the class of their characters ends.
  | number hc =>
    subst hu
    have hbody : numberBody c (t ++ rest) = ⟨t, rest, true⟩ := Division.prepend_eq_iff.mp hd.symm
    have := Cuts.number (t := t ++ rest') hc
    rwa [numberBody_local hbody hr] at this
  | name hc =>
    subst hu
    have hbody : Division.run continuesName (t ++ rest) = ⟨t, rest, true⟩ :=
      Division.prepend_eq_iff.mp hd.symm
    have := Cuts.name (t := t ++ rest') hc
    rwa [(endsBy_run (fun _ => graphic_of_continuesName) hbody).replace hr] at this
  | operator hc hpair =>
    subst hu
    have hbody : operatorBody (t ++ rest) = ⟨t, rest, true⟩ := Division.prepend_eq_iff.mp hd.symm
    have hpair' : opensPair c (t ++ rest') = false := by
      cases t with
      | nil => exact opensPair_of_replacedBy hr hpair
      | cons d t => exact (opensPair_append _ _).trans hpair
    have := Cuts.operator hc hpair'
    rw [operatorBody_local hbody hr] at this
    rwa [hbody]
  | unknown hp hq hdigit hn ho =>
    obtain rfl : t = [] := by simpa using congrArg Division.taken hd
    exact .unknown hp hq hdigit hn ho

theorem closed_exponentBody (t : Text) : (exponentBody t).closed = true := by
  fun_cases exponentBody t <;> rfl

/-- An operator needs no terminator. -/
theorem closed_operatorBody (t : Text) : (operatorBody t).closed = true := by
  fun_induction operatorBody t with
  | case1 => rfl
  | case2 c t _ ih => exact ih
  | case3 => rfl

/-- Whether a token goes on to the end of its line or of the text. -/
def RunsOn (k : Kind) (closed : Bool) : Prop := closed = false ∨ k = .lineComment

/-- Only opaque tokens and line comments run on. -/
theorem not_runsOn_of_ofPunctuation? {c : Char} {k : Kind} (h : Kind.ofPunctuation? c = some k) :
    ¬RunsOn k true := by
  rintro (h' | rfl)
  · exact absurd h' (by decide)
  · unfold Kind.ofPunctuation? at h
    split at h <;> simp at h

/-- Operators do not run on. -/
theorem not_runsOn_operatorKind (t : Text) : ¬RunsOn (operatorKind t) true := by
  rintro (h | h)
  · exact absurd h (by decide)
  · unfold operatorKind at h
    split at h <;> simp at h

/-- An unterminated string has stopped in front of a line feed or at the end of the text. -/
theorem head?_rest_stringBody (quote : Char) (t : Text)
    (h : (stringBody quote t).closed = false) :
    ∀ c ∈ (stringBody quote t).rest.head?, c = '\n' := by
  fun_induction stringBody quote t with
  | case1 => simp
  | case2 c t ih => exact ih h
  | case3 c t _ hline =>
    simp only [Bool.and_eq_true, decide_eq_true_eq] at hline
    simp [hline.1]
  | case4 => exact absurd h (by simp)
  | case5 c t _ _ _ ih => exact ih h

/-- An unterminated comment or fragment goes on to the end of the text. -/
theorem rest_eq_nil_of_upTo {terminator t rest : Text}
    (h : upTo terminator (t ++ rest) = ⟨t, rest, false⟩) : rest = [] := by
  have := rest_upTo terminator (t ++ rest) (by rw [h])
  rwa [h] at this

/-- A token that runs on has stopped in front of a line feed or at the end of the text, and stops in
    the same way in front of any other text with that start. -/
theorem Cuts.runsOn {c : Char} {t rest : Text} {k : Kind} {closed : Bool}
    (h : Cuts c (t ++ rest) k ⟨c :: t, rest, closed⟩) (hk : RunsOn k closed) :
    (∀ a ∈ rest.head?, a = '\n') ∧
      ∀ rest', rest'.head? = rest.head? → Cuts c (t ++ rest') k ⟨c :: t, rest', closed⟩ := by
  generalize hu : t ++ rest = u at h
  generalize hd : (⟨c :: t, rest, closed⟩ : Division) = d at h
  cases h with
  | punctuation hc =>
    obtain rfl : closed = true := congrArg Division.closed hd
    exact absurd hk (not_runsOn_of_ofPunctuation? hc)
  | lineComment hc =>
    obtain ⟨w, rfl, hbody⟩ := exists_body_of_pair hu hd
    subst hc
    obtain rfl : closed = true := (congrArg Division.closed hbody).symm
    -- A line comment ends in front of the first line feed.
    obtain ⟨hall, hstop⟩ := run_eq_iff.mp hbody
    refine ⟨fun a ha => by simpa using hstop a ha, fun rest' hr => ?_⟩
    have hnew : Division.run (· != '\n') (w ++ rest') = ⟨w, rest', true⟩ :=
      run_eq_iff.mpr ⟨hall, fun a ha => hstop a (hr ▸ ha)⟩
    have := Cuts.lineComment (t := w ++ rest') rfl
    rwa [hnew] at this
  | blockComment hc =>
    obtain ⟨w, rfl, hbody⟩ := exists_body_of_pair hu hd
    obtain rfl : closed = false := hk.resolve_right (by decide)
    -- Without its terminator it takes all of the text, and nothing is left to exchange.
    obtain rfl : rest = [] := rest_eq_nil_of_upTo (by rwa [commentBody_eq_upTo] at hbody)
    refine ⟨by simp, fun rest' hr => ?_⟩
    obtain rfl : rest' = [] := by simpa using hr
    subst hc
    have := Cuts.blockComment (t := w ++ []) rfl
    rwa [hbody] at this
  | markup hc =>
    obtain ⟨w, rfl, hbody⟩ := exists_body_of_pair hu hd
    obtain rfl : closed = false := hk.resolve_right (by decide)
    obtain rfl : rest = [] := rest_eq_nil_of_upTo (by rwa [markupBody_eq_upTo] at hbody)
    refine ⟨by simp, fun rest' hr => ?_⟩
    obtain rfl : rest' = [] := by simpa using hr
    subst hc
    have := Cuts.markup (t := w ++ []) rfl
    rwa [hbody] at this
  | string hc =>
    subst hu
    have hquote : c ≠ '\\' := by rintro rfl; exact absurd hc (by decide)
    have hbody : stringBody c (t ++ rest) = ⟨t, rest, closed⟩ := Division.prepend_eq_iff.mp hd.symm
    obtain rfl : closed = false := hk.resolve_right (by decide)
    refine ⟨?_, fun rest' hr => ?_⟩
    · have := head?_rest_stringBody c (t ++ rest) (by rw [hbody])
      rwa [hbody] at this
    · have := Cuts.string (t := t ++ rest') hc
      rwa [stringBody_local hquote rest' (fun _ => hr) t hbody] at this
  -- The kinds that are left end by themselves.
  | number hc =>
    obtain rfl : closed = true := (congrArg Division.closed hd).trans (closed_exponentBody _)
    exact absurd hk (by simp [RunsOn])
  | name hc =>
    obtain rfl : closed = true := congrArg Division.closed hd
    exact absurd hk (by simp [RunsOn])
  | operator hc hpair =>
    obtain rfl : closed = true := (congrArg Division.closed hd).trans (closed_operatorBody _)
    exact absurd hk (not_runsOn_operatorKind _)
  | unknown hp hq hdigit hn ho =>
    obtain rfl : closed = true := congrArg Division.closed hd
    exact absurd hk (by simp [RunsOn])

/-- Every token takes its first character. -/
theorem Cuts.exists_taken_eq {c : Char} {t : Text} {k : Kind} {d : Division} (h : Cuts c t k d) :
    ∃ u, d.taken = c :: u := by
  cases h with
  | punctuation => exact ⟨_, rfl⟩
  | lineComment hc => exact ⟨_, by rw [hc]; rfl⟩
  | blockComment hc => exact ⟨_, by rw [hc]; rfl⟩
  | markup hc => exact ⟨_, by rw [hc]; rfl⟩
  | string => exact ⟨_, rfl⟩
  | number => exact ⟨_, rfl⟩
  | name => exact ⟨_, rfl⟩
  | operator => exact ⟨_, rfl⟩
  | unknown => exact ⟨_, rfl⟩

/-- `x` is the token that is cut off in front of `rest`. -/
def Fits (x : Lexeme) (rest : Text) : Prop :=
  ∃ c t, x.text = c :: t ∧ isBlank c = false ∧ scan c (t ++ rest) = (x, rest)

/-- A lexeme fits if it can be cut off where it stands. -/
theorem fits_iff_cuts {x : Lexeme} {rest : Text} :
    x.Fits rest ↔ ∃ c t, x.text = c :: t ∧ isBlank c = false ∧
      Cuts c (t ++ rest) x.kind ⟨c :: t, rest, x.closed⟩ := by
  constructor
  · rintro ⟨c, t, htext, hc, hscan⟩
    obtain ⟨k, d, hcuts, heq⟩ := exists_cuts_scan c (t ++ rest)
    rw [hscan] at heq
    refine ⟨c, t, htext, hc, ?_⟩
    rw [← htext]
    obtain ⟨rfl, rfl⟩ := Prod.mk.inj heq
    exact hcuts
  · rintro ⟨c, t, htext, hc, hcuts⟩
    refine ⟨c, t, htext, hc, ?_⟩
    rw [scan_of_cuts hcuts, ofDivision, ← htext]

/-- What is cut off fits where it is cut off. -/
theorem fits_scan {c : Char} (hc : isBlank c = false) (t : Text) :
    (scan c t).1.Fits (scan c t).2 ∧ (scan c t).1.text ++ (scan c t).2 = c :: t := by
  obtain ⟨k, d, hcuts, heq⟩ := exists_cuts_scan c t
  obtain ⟨u, hu⟩ := hcuts.exists_taken_eq
  have hwhole : d.taken ++ d.rest = c :: t := hcuts.whole
  rw [heq]
  refine ⟨⟨c, u, hu, hc, ?_⟩, hwhole⟩
  obtain rfl : u ++ d.rest = t := by
    rw [hu] at hwhole
    exact (List.cons.inj hwhole).2
  exact heq

/-- Whether a token goes on to the end of its line or of the text: it is a line comment, or its
    terminator is missing. -/
def runsOn (x : Lexeme) : Prop := RunsOn x.kind x.closed

/-- **Tokens that end by themselves.** Such a token stays what it is when the text behind it is
    exchanged for one that looks the same or shows that the token has ended. -/
theorem fits_of_replacedBy {x : Lexeme} {rest rest' : Text} (h : x.Fits rest) (hx : ¬x.runsOn)
    (hr : ReplacedBy rest rest') : x.Fits rest' := by
  rw [fits_iff_cuts] at h ⊢
  obtain ⟨c, t, htext, hc, hcuts⟩ := h
  simp only [runsOn, RunsOn, not_or, Bool.not_eq_false] at hx
  rw [hx.1] at hcuts ⊢
  exact ⟨c, t, htext, hc, hcuts.replace hx.2 hr⟩

/-- **Tokens that run on.** Behind such a token comes a line feed or nothing, and it stays what it
    is as long as this does not change. -/
theorem fits_of_head?_eq {x : Lexeme} {rest rest' : Text} (h : x.Fits rest) (hx : x.runsOn)
    (hr : rest'.head? = rest.head?) : x.Fits rest' := by
  rw [fits_iff_cuts] at h ⊢
  obtain ⟨c, t, htext, hc, hcuts⟩ := h
  exact ⟨c, t, htext, hc, (hcuts.runsOn hx).2 rest' hr⟩

/-- A line feed, or nothing, follows a token that runs on. -/
theorem head?_of_runsOn {x : Lexeme} {rest : Text} (h : x.Fits rest) (hx : x.runsOn) :
    ∀ c ∈ rest.head?, c = '\n' := by
  obtain ⟨c, t, -, -, hcuts⟩ := fits_iff_cuts.mp h
  exact (hcuts.runsOn hx).1

/-- No operator is a comma. -/
theorem operatorKind_ne_comma (t : Text) : operatorKind t ≠ .comma := by
  unfold operatorKind
  split <;> simp

/-- The comma is the only character of its kind. -/
theorem ofPunctuation?_eq_comma {c : Char} (h : Kind.ofPunctuation? c = some .comma) : c = ',' := by
  unfold Kind.ofPunctuation? at h
  split at h <;> simp_all

/-- A comma is one character. -/
theorem Cuts.comma {c : Char} {t : Text} {d : Division} (h : Cuts c t .comma d) :
    c = ',' ∧ d = ⟨[','], t, true⟩ := by
  generalize hk : Kind.comma = k at h
  cases h with
  | punctuation hc =>
    rw [← hk] at hc
    obtain rfl := ofPunctuation?_eq_comma hc
    exact ⟨rfl, rfl⟩
  | operator => exact absurd hk.symm (operatorKind_ne_comma _)
  | _ => exact absurd hk (by decide)

/-- A comma is a token in front of any text. -/
theorem fits_comma {x : Lexeme} {rest : Text} (h : x.Fits rest) (hx : x.kind = .comma) :
    x = ⟨.comma, [','], true⟩ ∧ ∀ rest', x.Fits rest' := by
  obtain ⟨c, t, htext, hc, hcuts⟩ := fits_iff_cuts.mp h
  rw [hx] at hcuts
  obtain ⟨rfl, hd⟩ := hcuts.comma
  obtain rfl : t = [] := by simpa using congrArg Division.taken hd
  have hclosed : x.closed = true := congrArg Division.closed hd
  obtain rfl : x = ⟨.comma, [','], true⟩ := by
    rw [← hx, ← htext, ← hclosed]
  exact ⟨rfl, fun rest' => ⟨',', [], rfl, hc, rfl⟩⟩

end CommaStyle.Lexeme
