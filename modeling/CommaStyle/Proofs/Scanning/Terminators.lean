import CommaStyle.Diagnostic
import CommaStyle.Proofs.Scanning.Endings

namespace CommaStyle

/-!
# Where opaque tokens end

An opaque token ends at the first place where its terminator stands, and one without a terminator
goes on to the end of the text. Here this is said without a scanner.

* `Text.FirstStop` says that a text is divided at the first place of some sort, `Text.NeverStops` that
  there is no such place;
* `Text.Escapes` counts the backslashes at the end of a text: behind an odd number of them, the next
  character is taken as it is;
* `Lexeme.Delimited` has a rule for each way in which an opaque token can end, and
  `Lexeme.Fits.delimited` says that every opaque token ends in one of them.
-/

namespace Kind

/-- Whether a token of this kind may have anything inside. -/
def isOpaque : Kind → Bool
  | string | markup | lineComment | blockComment => true
  | _ => false

/-- What the tokens of a kind that stand between two delimiters start and end with. -/
def delimiters? : Kind → Option (Text × Text)
  | blockComment => some (['/', '*'], ['*', '/'])
  | markup => some (['<', '>'], ['<', '/', '>'])
  | _ => none

/-- Block comments and fragments stand between delimiters. -/
theorem delimiters?_cases {k : Kind} {opening closing : Text}
    (h : k.delimiters? = some (opening, closing)) :
    (k = blockComment ∧ opening = ['/', '*'] ∧ closing = ['*', '/']) ∨
      (k = markup ∧ opening = ['<', '>'] ∧ closing = ['<', '/', '>']) := by
  unfold delimiters? at h
  split at h
  · obtain ⟨rfl, rfl⟩ := Prod.mk.inj (Option.some.inj h)
    exact .inl ⟨rfl, rfl, rfl⟩
  · obtain ⟨rfl, rfl⟩ := Prod.mk.inj (Option.some.inj h)
    exact .inr ⟨rfl, rfl, rfl⟩
  · cases h

end Kind

/-! ### The first place of some sort -/

namespace Text

/-- Whether a text divided into `a` and `b` is divided at the first place where `stop` holds. -/
structure FirstStop (stop : Text → Text → Prop) (a b : Text) : Prop where
  stops : stop a b
  first : ∀ a' b', a' ++ b' = a ++ b → stop a' b' → a.length ≤ a'.length

/-- Whether `stop` holds at no place of a text. -/
def NeverStops (stop : Text → Text → Prop) (t : Text) : Prop := ∀ a b, a ++ b = t → ¬stop a b

section

variable {stop : Text → Text → Prop} {front a b : Text}

/-- Where nothing stops within a front part, and the part makes no difference behind it, it can be
    put in front. -/
theorem FirstStop.prepend (hfront : ∀ u v, v ≠ [] → front = u ++ v → ¬stop u (v ++ (a ++ b)))
    (hbehind : ∀ a b, stop (front ++ a) b ↔ stop a b) (h : FirstStop stop a b) :
    FirstStop stop (front ++ a) b := by
  refine ⟨(hbehind a b).mpr h.stops, ?_⟩
  intro a' b' hsplit hstop
  rw [List.append_assoc] at hsplit
  rcases List.append_cases hsplit with ⟨v, hv, hwithin, rfl⟩ | ⟨u, rfl, hu⟩
  · exact absurd hstop (hfront a' v hv hwithin)
  · have hle := h.first u b' hu.symm ((hbehind u b').mp hstop)
    rw [List.length_append, List.length_append]
    omega

/-- Where nothing stops within a front part, it can be put in front of a text without a stop. -/
theorem NeverStops.prepend (hfront : ∀ u v, v ≠ [] → front = u ++ v → ¬stop u (v ++ a))
    (hbehind : ∀ a b, stop (front ++ a) b ↔ stop a b) (h : NeverStops stop a) :
    NeverStops stop (front ++ a) := by
  intro a' b' hsplit hstop
  rcases List.append_cases hsplit with ⟨v, hv, hwithin, rfl⟩ | ⟨u, rfl, hu⟩
  · exact hfront a' v hv hwithin hstop
  · exact h u b' hu.symm ((hbehind u b').mp hstop)

theorem firstStop_nil (h : stop [] b) : FirstStop stop [] b := ⟨h, fun _ _ _ _ => Nat.zero_le _⟩

theorem neverStops_nil (h : ¬stop [] []) : NeverStops stop [] := by
  intro a b hab
  obtain ⟨rfl, rfl⟩ := List.append_eq_nil_iff.mp hab
  exact h

end

/-- The places where a text starts with `terminator`. -/
def StartsWith (terminator : Text) (_ b : Text) : Prop := terminator <+: b

section

variable {terminator a b : Text} {c : Char}

/-- A character that starts no terminator moves the first one on. -/
theorem FirstStop.cons_startsWith (hc : ¬terminator <+: c :: (a ++ b))
    (h : FirstStop (StartsWith terminator) a b) : FirstStop (StartsWith terminator) (c :: a) b := by
  show FirstStop _ ([c] ++ a) b
  refine .prepend ?_ (fun _ _ => Iff.rfl) h
  intro u v hv huv
  obtain ⟨rfl, rfl⟩ := List.eq_of_singleton_eq_append hv huv
  exact hc

/-- A character that starts no terminator brings none in. -/
theorem NeverStops.cons_startsWith (hc : ¬terminator <+: c :: a)
    (h : NeverStops (StartsWith terminator) a) : NeverStops (StartsWith terminator) (c :: a) := by
  show NeverStops _ ([c] ++ a)
  refine .prepend ?_ (fun _ _ => Iff.rfl) h
  intro u v hv huv
  obtain ⟨rfl, rfl⟩ := List.eq_of_singleton_eq_append hv huv
  exact hc

end

/-! ### Backslashes -/

/-- Whether a text ends in an odd number of backslashes, so that the character behind it is taken as
    it is. -/
def Escapes (t : Text) : Prop := (t.rtakeWhile (· == '\\')).length % 2 = 1

instance (t : Text) : Decidable t.Escapes := inferInstanceAs (Decidable (_ = _))

/-- A front part that escapes nothing makes no difference to what is escaped behind it. -/
theorem escapes_append {front : Text} (h : ¬Escapes front) (t : Text) :
    Escapes (front ++ t) ↔ Escapes t := by
  by_cases hall : ∀ c ∈ t, (c == '\\') = true
  · -- The backslashes at the end of the front part join those that follow, an even number of them.
    have hself : t.rtakeWhile (· == '\\') = t := List.rtakeWhile_eq_self_iff.mpr hall
    unfold Escapes at h ⊢
    rw [List.rtakeWhile_append_of_pos hall, hself, List.length_append]
    omega
  · push Not at hall
    obtain ⟨c, hc, hne⟩ := hall
    unfold Escapes
    rw [List.rtakeWhile_append_of_neg hc (by simpa using hne)]

theorem not_escapes_nil : ¬Escapes [] := by decide

theorem not_escapes_singleton {c : Char} (hc : c ≠ '\\') : ¬Escapes [c] := by
  simp [Escapes, List.rtakeWhile, hc]

/-- A backslash and the character that it takes with it escape nothing. -/
theorem not_escapes_pair (c : Char) : ¬Escapes ['\\', c] := by
  by_cases hc : c = '\\'
  · subst hc
    decide
  · simp [Escapes, List.rtakeWhile, hc]

/-- The places where a string in some quotes ends: in front of the closing quote or, unless the string
    may run over several lines, in front of a line feed, if they are not escaped. -/
def EndsString (quote : Char) (a b : Text) : Prop :=
  ¬Escapes a ∧ ∃ c ∈ b.head?, c = quote ∨ (c = '\n' ∧ Lexeme.spansLines quote = false)

/-- Behind a front part that escapes nothing, a string ends where it ends without it. -/
theorem endsString_append (quote : Char) {front : Text} (h : ¬Escapes front) (a b : Text) :
    EndsString quote (front ++ a) b ↔ EndsString quote a b := by
  rw [EndsString, EndsString, escapes_append h]

/-- No string ends at the end of the text. -/
theorem not_endsString_nil (quote : Char) (a : Text) : ¬EndsString quote a [] := by
  rintro ⟨-, c, hc, -⟩
  exact absurd hc (by simp)

/-- A string goes on over a character that neither closes nor breaks it. -/
theorem not_endsString_cons {quote c : Char} (hquote : c ≠ quote)
    (hline : ¬(c = '\n' ∧ Lexeme.spansLines quote = false)) (a b : Text) :
    ¬EndsString quote a (c :: b) := by
  rintro ⟨-, d, hd, hend⟩
  obtain rfl : c = d := by simpa using hd
  exact hend.elim hquote hline

/-- A string goes on over a backslash and the character behind it. -/
theorem not_endsString_within_pair {quote c : Char} (hquote : quote ≠ '\\') {u v t : Text} (hv : v ≠ [])
    (h : ['\\', c] = u ++ v) : ¬EndsString quote u (v ++ t) := by
  rcases u with _ | ⟨b, _ | ⟨b', u⟩⟩
  · obtain rfl : ['\\', c] = v := h
    exact not_endsString_cons hquote.symm (fun h => absurd h.1 (by decide)) [] (c :: t)
  · -- Behind the backslash, the other character is escaped.
    obtain rfl : '\\' = b := (List.cons.inj h).1
    exact fun hends => hends.1 (by decide)
  · simp only [List.cons_append, List.cons.injEq, List.nil_eq_append_iff] at h
    exact absurd h.2.2.2 hv

end Text

namespace Lexeme

open Text

/-! ### What the scanners take -/

/-- What is taken up to a terminator ends at the first one, or at the end of the text. -/
theorem upTo_cases {terminator : Text} (hne : terminator ≠ []) (t : Text) :
    (∃ inside rest, t = inside ++ (terminator ++ rest) ∧
      upTo terminator t = ⟨inside ++ terminator, rest, true⟩ ∧
      FirstStop (StartsWith terminator) inside (terminator ++ rest)) ∨
    (upTo terminator t = ⟨t, [], false⟩ ∧ NeverStops (StartsWith terminator) t) := by
  induction t with
  | nil => exact .inr ⟨rfl, neverStops_nil fun h => hne (List.prefix_nil.mp h)⟩
  | cons c t ih =>
    rw [upTo]
    split
    · next hp =>
      obtain ⟨rest, hrest⟩ := List.isPrefixOf_iff_prefix.mp hp
      refine .inl ⟨[], rest, hrest.symm, ?_, firstStop_nil (List.prefix_append _ _)⟩
      rw [← hrest, List.drop_left, List.nil_append]
    · next hp =>
      rw [List.isPrefixOf_iff_prefix] at hp
      rcases ih with ⟨inside, rest, rfl, hupTo, hfirst⟩ | ⟨hupTo, hnever⟩
      · rw [hupTo]
        exact .inl ⟨c :: inside, rest, rfl, rfl, hfirst.cons_startsWith hp⟩
      · rw [hupTo]
        exact .inr ⟨rfl, hnever.cons_startsWith hp⟩

/-- A line comment ends in front of the first line feed, or at the end of the text. -/
theorem run_line_cases (t : Text) :
    (∃ inside rest, Division.run (· != '\n') t = ⟨inside, rest, true⟩ ∧
      FirstStop (StartsWith ['\n']) inside rest) ∨
    (Division.run (· != '\n') t = ⟨t, [], true⟩ ∧ NeverStops (StartsWith ['\n']) t) := by
  induction t with
  | nil => exact .inr ⟨rfl, neverStops_nil fun h => absurd (List.prefix_nil.mp h) (by simp)⟩
  | cons c t ih =>
    by_cases hc : c = '\n'
    · subst hc
      exact .inl ⟨[], '\n' :: t, rfl, firstStop_nil (List.prefix_append ['\n'] t)⟩
    · have hstep : Division.run (· != '\n') (c :: t) =
          (Division.run (· != '\n') t).prepend [c] := by
        simp [Division.run, Division.prepend, hc]
      have hno : ∀ u, ¬['\n'] <+: c :: u := by
        rintro u ⟨v, hv⟩
        exact hc (List.cons.inj hv).1.symm
      rw [hstep]
      rcases ih with ⟨inside, rest, hrun, hfirst⟩ | ⟨hrun, hnever⟩
      · rw [hrun]
        exact .inl ⟨c :: inside, rest, rfl, hfirst.cons_startsWith (hno _)⟩
      · rw [hrun]
        exact .inr ⟨rfl, hnever.cons_startsWith (hno t)⟩

/-- A string goes on up to the first place that ends it, or to the end of the text. -/
theorem stringBody_cases {quote : Char} (hquote : quote ≠ '\\') (t : Text) :
    ∃ a b, t = a ++ b ∧ stringBody quote t = (stringBody quote b).prepend a ∧
      (FirstStop (EndsString quote) a b ∨ (b = [] ∧ NeverStops (EndsString quote) a)) := by
  induction t using stringBody.induct quote with
  | case1 => exact ⟨[], [], rfl, rfl, .inr ⟨rfl, neverStops_nil (not_endsString_nil quote [])⟩⟩
  | case2 c t ih =>
    obtain ⟨a, b, rfl, hbody, hend⟩ := ih
    have hbehind := endsString_append quote (not_escapes_pair c)
    refine ⟨'\\' :: c :: a, b, rfl, ?_, ?_⟩
    · rw [stringBody_escape, hbody]
      rfl
    · rcases hend with hfirst | ⟨rfl, hnever⟩
      · exact .inl (hfirst.prepend (fun u v => not_endsString_within_pair hquote) hbehind)
      · exact .inr ⟨rfl, hnever.prepend (fun u v => not_endsString_within_pair hquote) hbehind⟩
  | case3 c t hescape hline =>
    simp only [Bool.and_eq_true, decide_eq_true_eq, Bool.not_eq_true'] at hline
    exact ⟨[], c :: t, rfl, rfl, .inl (firstStop_nil ⟨not_escapes_nil, c, rfl, .inr hline⟩)⟩
  | case4 t hescape hline =>
    exact ⟨[], quote :: t, rfl, rfl, .inl (firstStop_nil ⟨not_escapes_nil, quote, rfl, .inl rfl⟩)⟩
  | case5 c t hescape hline hc ih =>
    simp only [Bool.and_eq_true, decide_eq_true_eq, Bool.not_eq_true'] at hline
    have hwithin : ∀ u v t : Text, v ≠ [] → [c] = u ++ v → ¬EndsString quote u (v ++ t) := by
      intro u v t hv huv
      obtain ⟨rfl, rfl⟩ := List.eq_of_singleton_eq_append hv huv
      exact not_endsString_cons hc hline [] t
    have hstep : stringBody quote (c :: t) = (stringBody quote t).prepend [c] := by
      rw [stringBody, if_neg (by simpa using hline), if_neg hc]
      exact hescape
    by_cases hback : c = '\\'
    · -- A backslash with nothing behind it is the last character of the text.
      obtain rfl : t = [] := by
        cases t with
        | nil => rfl
        | cons d t => exact (hescape d t hback rfl).elim
      refine ⟨[c], [], rfl, hstep, .inr ⟨rfl, ?_⟩⟩
      intro u v huv
      rcases eq_or_ne v [] with rfl | hv
      · exact not_endsString_nil quote u
      · simpa using hwithin u v [] hv huv.symm
    · obtain ⟨a, b, rfl, hbody, hend⟩ := ih
      have hbehind := endsString_append quote (not_escapes_singleton hback)
      refine ⟨c :: a, b, rfl, ?_, ?_⟩
      · rw [hstep, hbody]
        rfl
      · rcases hend with hfirst | ⟨rfl, hnever⟩
        · exact .inl (hfirst.prepend (fun u v => hwithin u v _) hbehind)
        · exact .inr ⟨rfl, hnever.prepend (fun u v => hwithin u v _) hbehind⟩

/-! ### Opaque tokens -/

/-- The ways in which an opaque token can end in front of a text. -/
inductive Delimited : Lexeme → Text → Prop where
  /-- A line comment ends in front of the next line feed. -/
  | lineComment {inside rest} (h : FirstStop (StartsWith ['\n']) inside rest) :
    Delimited ⟨.lineComment, '/' :: '/' :: inside, true⟩ rest
  /-- On the last line there is none. -/
  | lastLineComment {inside} (h : NeverStops (StartsWith ['\n']) inside) :
    Delimited ⟨.lineComment, '/' :: '/' :: inside, true⟩ []
  /-- A block comment or a fragment ends behind the first closing delimiter. -/
  | enclosed {k opening closing inside rest} (hk : k.delimiters? = some (opening, closing))
    (h : FirstStop (StartsWith closing) inside (closing ++ rest)) :
    Delimited ⟨k, opening ++ (inside ++ closing), true⟩ rest
  /-- Without a closing delimiter it takes all of the text. -/
  | unenclosed {k opening closing inside} (hk : k.delimiters? = some (opening, closing))
    (h : NeverStops (StartsWith closing) inside) : Delimited ⟨k, opening ++ inside, false⟩ []
  /-- A string ends behind the first quote that is not escaped. -/
  | string {quote inside rest} (hquote : isQuote quote = true)
    (h : FirstStop (EndsString quote) inside (quote :: rest)) :
    Delimited ⟨.string, quote :: (inside ++ [quote]), true⟩ rest
  /-- A line feed that is not escaped comes before such a quote, and the string stops there. -/
  | brokenString {quote inside rest} (hquote : isQuote quote = true)
    (h : FirstStop (EndsString quote) inside ('\n' :: rest)) :
    Delimited ⟨.string, quote :: inside, false⟩ ('\n' :: rest)
  /-- Nothing ends the string, and it takes all of the text. -/
  | openString {quote inside} (hquote : isQuote quote = true)
    (h : NeverStops (EndsString quote) inside) : Delimited ⟨.string, quote :: inside, false⟩ []

/-- A token between delimiters ends at the first closing one, or with the text. -/
theorem delimited_upTo {k : Kind} {opening closing : Text}
    (hk : k.delimiters? = some (opening, closing)) (hne : closing ≠ []) (t : Text) :
    Delimited ⟨k, opening ++ (upTo closing t).taken, (upTo closing t).closed⟩
      (upTo closing t).rest := by
  rcases upTo_cases hne t with ⟨inside, rest, -, hupTo, hfirst⟩ | ⟨hupTo, hnever⟩
  · rw [hupTo]
    exact .enclosed hk hfirst
  · rw [hupTo]
    exact .unenclosed hk hnever

/-- A line comment ends with its line. -/
theorem delimited_run_line (t : Text) :
    Delimited ⟨.lineComment, '/' :: '/' :: (Division.run (· != '\n') t).taken, true⟩
      (Division.run (· != '\n') t).rest := by
  rcases run_line_cases t with ⟨inside, rest, hrun, hfirst⟩ | ⟨hrun, hnever⟩
  · rw [hrun]
    exact .lineComment hfirst
  · rw [hrun]
    exact .lastLineComment hnever

/-- A string ends at the first quote or line feed that is not escaped, or with the text. -/
theorem delimited_stringBody {quote : Char} (hquote : isQuote quote = true) (t : Text) :
    Delimited ⟨.string, quote :: (stringBody quote t).taken, (stringBody quote t).closed⟩
      (stringBody quote t).rest := by
  have hback : quote ≠ '\\' := by
    rintro rfl
    exact absurd hquote (by decide)
  obtain ⟨inside, behind, -, hbody, hend⟩ := stringBody_cases hback t
  rw [hbody]
  rcases hend with hfirst | ⟨rfl, hnever⟩
  · obtain ⟨-, c, hc, hends⟩ := hfirst.stops
    obtain ⟨rest, rfl⟩ := List.head?_eq_some_iff.mp hc
    rcases hends with rfl | ⟨rfl, hline⟩
    · have hstop : stringBody c (c :: rest) = ⟨[c], rest, true⟩ := by
        rw [stringBody_cons c fun h => absurd h hback, if_neg ?_, if_pos rfl]
        simp only [Bool.and_eq_true, decide_eq_true_eq, not_and]
        rintro rfl
        exact absurd hquote (by decide)
      rw [hstop]
      exact .string hquote hfirst
    · have hstop : stringBody quote ('\n' :: rest) = ⟨[], '\n' :: rest, false⟩ := by
        rw [stringBody_cons quote fun h => absurd h (by decide), if_pos (by simp [hline])]
      rw [hstop]
      simpa [Division.prepend] using Delimited.brokenString hquote hfirst
  · simpa [Division.prepend, stringBody] using Delimited.openString hquote hnever

/-- Punctuation is not opaque. -/
theorem isOpaque_of_ofPunctuation? {c : Char} {k : Kind} (h : Kind.ofPunctuation? c = some k) :
    k.isOpaque = false := by
  unfold Kind.ofPunctuation? at h
  split at h
  all_goals first | (obtain rfl := Option.some.inj h; rfl) | cases h

/-- Operators are not opaque. -/
theorem isOpaque_operatorKind (t : Text) : (operatorKind t).isOpaque = false := by
  unfold operatorKind
  split <;> rfl

/-- **Opaque tokens.** Every opaque token ends in one of these ways. -/
theorem Cuts.delimited {c : Char} {t : Text} {k : Kind} {d : Division} (h : Cuts c t k d)
    (hk : k.isOpaque = true) : Delimited ⟨k, d.taken, d.closed⟩ d.rest := by
  cases h with
  | punctuation hc => rw [isOpaque_of_ofPunctuation? hc] at hk; cases hk
  | lineComment => exact delimited_run_line _
  | @blockComment t =>
    rw [commentBody_eq_upTo]
    exact delimited_upTo rfl (by simp) t
  | @markup t =>
    rw [markupBody_eq_upTo]
    exact delimited_upTo rfl (by simp) t
  | string hc => exact delimited_stringBody hc t
  | number => exact absurd hk (by decide)
  | name => exact absurd hk (by decide)
  | operator => rw [isOpaque_operatorKind] at hk; cases hk
  | unknown => exact absurd hk (by decide)

/-- An opaque token that fits ends in one of these ways. -/
theorem Fits.delimited {x : Lexeme} {rest : Text} (h : x.Fits rest) (hx : x.kind.isOpaque = true) :
    x.Delimited rest := by
  obtain ⟨c, t, htext, -, hcuts⟩ := fits_iff_cuts.mp h
  have hdelimited := hcuts.delimited hx
  rwa [← htext] at hdelimited

/-- An opaque token without its end has a fault. -/
theorem Delimited.exists_fault {x : Lexeme} {rest : Text} (h : x.Delimited rest)
    (hx : x.closed = false) : ∃ fault, Fault.ofUnclosed? x.kind = some fault := by
  cases h with
  | lineComment | lastLineComment | enclosed | string => cases hx
  | unenclosed hk =>
    rcases Kind.delimiters?_cases hk with ⟨rfl, -⟩ | ⟨rfl, -⟩ <;> exact ⟨_, rfl⟩
  | brokenString | openString => exact ⟨_, rfl⟩

end Lexeme

end CommaStyle
