import CommaStyle.Proofs.Scanning.Cuts

namespace CommaStyle.Lexeme

/-!
# Opaque tokens do not look behind themselves

A comment, a fragment or a string that has its terminator is the same token whatever follows it
(`upTo_closed`, `stringBody_local`). One whose terminator is missing goes on to the end of the text;
only an unterminated string can also stop in front of a line feed.
-/

/-- Takes the characters up to the first occurrence of a terminator, and that. -/
def upTo (terminator : Text) : Text → Division
  | [] => ⟨[], [], false⟩
  | c :: t =>
    if terminator.isPrefixOf (c :: t) then
      ⟨terminator, (c :: t).drop terminator.length, true⟩
    else (upTo terminator t).prepend [c]

/-- A block comment goes on up to its terminator. -/
theorem commentBody_eq_upTo (t : Text) : commentBody t = upTo ['*', '/'] t := by
  fun_induction commentBody t with
  | case1 => rfl
  | case2 t => rfl
  | case3 c t hne ih =>
    have hno : ['*', '/'].isPrefixOf (c :: t) = false := by
      rw [Bool.eq_false_iff, Ne, List.isPrefixOf_iff_prefix]
      rintro ⟨u, hu⟩
      simp only [List.cons_append, List.nil_append, List.cons.injEq] at hu
      exact hne u hu.1.symm hu.2.symm
    rw [upTo, hno, ih]
    rfl

/-- A fragment goes on up to its terminator. -/
theorem markupBody_eq_upTo (t : Text) : markupBody t = upTo ['<', '/', '>'] t := by
  fun_induction markupBody t with
  | case1 => rfl
  | case2 t => rfl
  | case3 c t hne ih =>
    have hno : ['<', '/', '>'].isPrefixOf (c :: t) = false := by
      rw [Bool.eq_false_iff, Ne, List.isPrefixOf_iff_prefix]
      rintro ⟨u, hu⟩
      simp only [List.cons_append, List.nil_append, List.cons.injEq] at hu
      exact hne u hu.1.symm hu.2.symm
    rw [upTo, hno, ih]
    rfl

/-- A closed part holds the terminator. -/
theorem length_le_of_upTo_closed (terminator t : Text) (h : (upTo terminator t).closed = true) :
    terminator.length ≤ (upTo terminator t).taken.length := by
  fun_induction upTo terminator t with
  | case1 => exact absurd h (by simp)
  | case2 c t _ => simp
  | case3 c t _ ih =>
    have := ih h
    simp only [Division.prepend, List.length_append]
    omega

/-- What is taken up to a terminator does not depend on the text behind it. -/
theorem upTo_closed {terminator t rest : Text} (hne : terminator ≠ [])
    (h : upTo terminator (t ++ rest) = ⟨t, rest, true⟩) (rest' : Text) :
    upTo terminator (t ++ rest') = ⟨t, rest', true⟩ := by
  have hlength : terminator.length ≤ t.length := by
    have := length_le_of_upTo_closed terminator (t ++ rest) (by rw [h])
    rwa [h] at this
  induction t with
  | nil => exact absurd (List.length_eq_zero_iff.mp (by simpa using hlength)) hne
  | cons c t ih =>
    -- A terminator at the front lies within what is taken, so the rest has no part in it.
    have hfront : ∀ r, terminator.isPrefixOf (c :: t ++ r) = terminator.isPrefixOf (c :: t) := by
      intro r
      rw [Bool.eq_iff_iff, List.isPrefixOf_iff_prefix, List.isPrefixOf_iff_prefix]
      exact ⟨fun hp => List.prefix_of_prefix_length_le hp (List.prefix_append _ _) hlength,
        fun hp => hp.trans (List.prefix_append _ _)⟩
    rw [List.cons_append, upTo, ← List.cons_append, hfront] at h ⊢
    split at h
    · next hp =>
      simp only [Division.mk.injEq] at h
      rw [if_pos hp, h.1]
      simp
    · next hp =>
      rw [if_neg hp]
      have hbody : upTo terminator (t ++ rest) = ⟨t, rest, true⟩ := Division.prepend_eq_iff.mp h
      have := length_le_of_upTo_closed terminator (t ++ rest) (by rw [hbody])
      rw [hbody] at this
      exact Division.prepend_eq_iff.mpr (ih hbody this)

/-- Without its terminator, everything is taken. -/
theorem rest_upTo (terminator t : Text) (h : (upTo terminator t).closed = false) :
    (upTo terminator t).rest = [] := by
  fun_induction upTo terminator t with
  | case1 => rfl
  | case2 c t _ => exact absurd h (by simp)
  | case3 c t _ ih => exact ih h

/-- A backslash takes the next character with it. -/
theorem stringBody_escape (quote c : Char) (t : Text) :
    stringBody quote ('\\' :: c :: t) = (stringBody quote t).prepend ['\\', c] := by
  rw [stringBody]

/-- A string ends at its quote, or in front of a line feed, and goes on over everything else. -/
theorem stringBody_cons (quote : Char) {c : Char} {t : Text} (h : c = '\\' → t = []) :
    stringBody quote (c :: t) =
      if c = '\n' && !spansLines quote then ⟨[], c :: t, false⟩
      else if c = quote then ⟨[c], t, true⟩
      else (stringBody quote t).prepend [c] := by
  rw [stringBody]
  rintro d u rfl rfl
  exact absurd (h rfl) (by simp)

/-- A string stops at once only at the end of the text or in front of a line feed. -/
theorem stringBody_eq_nil_iff {quote : Char} {t : Text} {closed : Bool} :
    stringBody quote t = ⟨[], t, closed⟩ ↔
      closed = false ∧ (t.head? = none ∨ (t.head? = some '\n' ∧ spansLines quote = false)) := by
  fun_cases stringBody quote t with
  | case1 => cases closed <;> simp
  | case2 c t => simp [Division.prepend]
  | case3 c t _ h =>
    simp only [Bool.and_eq_true, decide_eq_true_eq, Bool.not_eq_true'] at h
    cases closed <;> simp [h.1, h.2]
  | case4 t hescape h =>
    simp only [Bool.and_eq_true, decide_eq_true_eq, Bool.not_eq_true', not_and] at h
    simpa using fun _ => h
  | case5 c t _ h hq =>
    simp only [Bool.and_eq_true, decide_eq_true_eq, Bool.not_eq_true', not_and] at h
    simpa [Division.prepend] using fun _ => h

/-- One character of a string that is no backslash. -/
theorem stringBody_cons_local {quote a : Char} (ha : a ≠ '\\') {t rest rest' : Text} {closed : Bool}
    (ih : stringBody quote (t ++ rest) = ⟨t, rest, closed⟩ →
      stringBody quote (t ++ rest') = ⟨t, rest', closed⟩)
    (h : stringBody quote (a :: t ++ rest) = ⟨a :: t, rest, closed⟩) :
    stringBody quote (a :: t ++ rest') = ⟨a :: t, rest', closed⟩ := by
  rw [List.cons_append, stringBody_cons quote (fun h => absurd h ha)] at h ⊢
  split at h
  · exact absurd h (by simp)
  · next hline =>
    rw [if_neg hline]
    split at h
    · next hq =>
      simp only [Division.mk.injEq, List.cons.injEq, true_and] at h
      obtain ⟨hnil, -, rfl⟩ := h
      rw [if_pos hq, ← hnil, List.nil_append]
    · next hq =>
      rw [if_neg hq]
      exact Division.prepend_eq_iff.mpr (ih (Division.prepend_eq_iff.mp h))

/-- A string that has its closing quote does not look behind it; one that has none looks at one
    character, the line feed in front of which it stops. -/
theorem stringBody_local {quote : Char} (hquote : quote ≠ '\\') {rest : Text} (rest' : Text)
    {closed : Bool}
    (hrest : closed = false → rest'.head? = rest.head?) :
    ∀ t : Text, stringBody quote (t ++ rest) = ⟨t, rest, closed⟩ →
      stringBody quote (t ++ rest') = ⟨t, rest', closed⟩
  | [], h => by
    rw [List.nil_append, stringBody_eq_nil_iff] at h ⊢
    exact ⟨h.1, by rw [hrest h.1]; exact h.2⟩
  | [a], h => by
    by_cases ha : a = '\\'
    · subst ha
      cases rest with
      -- A backslash that ends the text takes nothing with it, and the string stays open.
      | nil =>
        have hopen : closed = false := by
          rw [List.append_nil, stringBody_cons quote (fun _ => rfl), if_neg (by simp),
            if_neg hquote.symm] at h
          simpa [stringBody, Division.prepend] using h.symm
        rw [List.head?_eq_none_iff.mp (hrest hopen)]
        exact h
      | cons c u =>
        -- A backslash takes the next character with it.
        rw [List.cons_append, List.nil_append, stringBody_escape] at h
        exact absurd h (by simp [Division.prepend])
    · exact stringBody_cons_local ha (stringBody_local hquote rest' hrest []) h
  | a :: b :: t, h => by
    by_cases ha : a = '\\'
    · subst ha
      have hfront : ∀ {d : Division} {r : Text}, d.prepend ['\\', b] = ⟨'\\' :: b :: t, r, closed⟩ ↔
          d = ⟨t, r, closed⟩ := Division.prepend_eq_iff
      simp only [List.cons_append, stringBody_escape, hfront] at h ⊢
      exact stringBody_local hquote rest' hrest t h
    · exact stringBody_cons_local ha (stringBody_local hquote rest' hrest (b :: t)) h

end CommaStyle.Lexeme
