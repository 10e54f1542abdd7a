import CommaStyle.Proofs.Standing
import Mathlib.Order.Bounds.Defs

namespace CommaStyle

open Text

/-!
# Line leaders

Line leaders are found by going through the tokens once, and are what one sees in the text.

* `Document.leader?_leaders`, `Document.leader?_eq_some_iff` — the leader of a line is the first token
  that touches it, which is the one with the least number;
* `Document.isLeading_iff` — a token leads the line on which it starts just if it is the first one
  of all, or a line feed stands in the white space in front of it;
* `Document.isLeading_iff_allBlank` — just if nothing but white space stands before it on its line;
* `Document.leaders_in_text` — the leaders of all lines and the leading tokens, said of the text.
-/

namespace Leaders

/-- A line that is given to a token has it as its leader, unless it had one before. -/
theorem leader?_claim (leaders : Leaders) (line id n : Nat) :
    (leaders.claim line id).leader? n =
      (leaders.leader? n).or (if line = n then some id else none) := by
  rw [claim]
  by_cases hline : line = n
  · subst hline
    cases hleader : leaders.leader? line with
    | some i => simp [hleader]
    | none =>
      have hlookup : leaders.lookup line = none := hleader
      simp [leader?, List.lookup_append, hlookup]
  · have hne : (n == line) = false := by simpa using Ne.symm hline
    rw [if_neg hline, Option.or_none]
    split
    · rfl
    · simp [leader?, List.lookup_append, List.lookup_cons, hne]

/-- The lines that a token touches have it as their leader, unless they had one before. -/
theorem leader?_touch (leaders : Leaders) (id : Nat) (x : Token) (n : Nat) :
    (leaders.touch id x).leader? n =
      (leaders.leader? n).or (if x.first.line = n ∨ x.past.line = n then some id else none) := by
  rw [touch, leader?_claim, leader?_claim, Option.or_assoc]
  by_cases hfirst : x.first.line = n <;> by_cases hpast : x.past.line = n <;> simp [hfirst, hpast]

end Leaders

namespace Document

/-- Whether a token starts or ends on a line. -/
def touches (d : Document) (line i : Nat) : Bool :=
  (d.token? i).any fun x => x.first.line == line || x.past.line == line

/-- **Leaders.** The leader of a line is the first token that starts or ends on it. -/
theorem leader?_leaders (d : Document) (line : Nat) :
    d.leaders.leader? line = d.ids.find? (d.touches line) := by
  -- The lines that have a leader when the walk comes to some tokens keep it.
  have hwalk : ∀ (ids : List Nat) (leaders : Leaders),
      (ids.foldl (fun leaders i => ((d.token? i).map (leaders.touch i)).getD leaders)
        leaders).leader? line = (leaders.leader? line).or (ids.find? (d.touches line)) := by
    intro ids
    induction ids with
    | nil => simp
    | cons i ids ih =>
      intro leaders
      rw [List.foldl_cons, ih, List.find?_cons]
      cases hx : d.token? i with
      | none => simp [touches, hx]
      | some x =>
        simp only [Option.map_some, Option.getD_some, Leaders.leader?_touch, Option.or_assoc]
        congr 1
        by_cases htouch : x.first.line = line ∨ x.past.line = line
        · have htrue : d.touches line i = true := by simpa [touches, hx] using htouch
          simp [htrue, htouch]
        · have hfalse : d.touches line i = false := by simpa [touches, hx] using htouch
          simp [hfalse, htouch]
  exact hwalk d.ids []

/-- A token touches the line on which it starts and the line on which it ends. -/
theorem touches_iff {d : Document} {line i : Nat} :
    d.touches line i = true ↔ ∃ x, d.token? i = some x ∧ (x.first.line = line ∨ x.past.line = line) := by
  simp [touches, Option.any_eq_true]

/-- Only tokens touch lines. -/
theorem lt_size_of_touches {d : Document} {line i : Nat} (h : d.touches line i = true) :
    i < d.size := by
  obtain ⟨x, hx, -⟩ := touches_iff.mp h
  exact lt_size_of_token? hx

/-- The leader of a line is the least token that starts or ends on it. -/
theorem leader?_eq_some_iff (d : Document) (line i : Nat) :
    d.leaders.leader? line = some i ↔ IsLeast {j | d.touches line j = true} i := by
  simp only [leader?_leaders, ids, List.find?_range_eq_some, Bool.not_eq_true']
  constructor
  · rintro ⟨hi, -, hbefore⟩
    refine ⟨hi, fun j hj => Nat.not_lt.mp fun hlt => ?_⟩
    exact absurd hj (Bool.eq_false_iff.mp (hbefore j hlt))
  · rintro ⟨hi, hleast⟩
    refine ⟨hi, List.mem_range.mpr (lt_size_of_touches hi), fun j hlt => ?_⟩
    exact Bool.eq_false_iff.mpr fun hj => absurd (hleast hj) (Nat.not_le.mpr hlt)

/-- A line has no leader just if no token starts or ends on it. -/
theorem leader?_eq_none_iff (d : Document) (line : Nat) :
    d.leaders.leader? line = none ↔ ∀ i, ¬d.touches line i = true := by
  simp only [leader?_leaders, ids, List.find?_range_eq_none, Bool.not_eq_true', Bool.eq_false_iff]
  exact ⟨fun h i hi => h i (lt_size_of_touches hi) hi, fun h i _ => h i⟩

variable {t : Text} {i j : Nat} {x y : Token}

/-- A token of a text ends as many lines below its first one as it has line feeds. -/
theorem past_line_of_token? (hx : (ofText t).token? i = some x) :
    x.past.line = x.first.line + x.text.count '\n' := by
  rw [token?_ofText] at hx
  exact Token.past_line_of_mem (List.mem_of_getElem? hx)

/-- Later tokens end on later lines, or on the same. -/
theorem past_line_le (hij : i ≤ j) (hx : (ofText t).token? i = some x)
    (hy : (ofText t).token? j = some y) : x.past.line ≤ y.past.line := by
  induction j, hij using Nat.le_induction generalizing y with
  | base =>
    rw [Option.some.inj (hx.symm.trans hy)]
  | succ j _ ih =>
    obtain ⟨z, hz⟩ := token?_of_succ hy
    have hle := ih hz
    have hline := (follows_of_token? hz hy).line
    have hpast := past_line_of_token? hy
    omega

/-- **Leading tokens.** A token leads its line just if it is the first one of all, or a line feed
    stands in front of it. -/
theorem isLeading_iff (hx : (ofText t).token? i = some x) :
    (ofText t).isLeading (ofText t).leaders i = true ↔ i = 0 ∨ '\n' ∈ x.blanks := by
  have hi := lt_size_of_token? hx
  have htouches : (ofText t).touches x.first.line i = true := by simp [touches, hx]
  have hleading : (ofText t).isLeading (ofText t).leaders i = true ↔
      ∀ j < i, (ofText t).touches x.first.line j = false := by
    simp [isLeading, hx, leader?_leaders, ids, List.find?_range_eq_some, htouches, hi]
  rw [hleading]
  cases i with
  | zero => simp
  | succ i =>
    obtain ⟨y, hy⟩ := token?_of_succ hx
    have hline := (follows_of_token? hy hx).line
    constructor
    · -- The token before it ends on an earlier line, so that a line feed stands between them.
      intro hnone
      refine .inr (List.count_pos_iff.mp ?_)
      have hne : y.past.line ≠ x.first.line := by
        have := hnone i (Nat.lt_succ_self i)
        simp only [touches, hy, Option.any_some, Bool.or_eq_false_iff, beq_eq_false_iff_ne] at this
        exact this.2
      omega
    · rintro (hzero | hfeed) j hj
      · cases hzero
      · have hpos := List.count_pos_iff.mpr hfeed
        cases hz : (ofText t).token? j with
        | none => simp [touches, hz]
        | some z =>
          have hle := past_line_le (Nat.lt_succ_iff.mp hj) hz hy
          have hpast := past_line_of_token? hz
          simp only [touches, hz, Option.any_some, Bool.or_eq_false_iff, beq_eq_false_iff_ne]
          omega

end Document

/-! ### What is seen in the text -/

namespace Text

/-- The characters of a text behind its last line feed. -/
def lastLine (t : Text) : Text := t.rtakeWhile (· != '\n')

/-- The white space at the end of a text. -/
def blanksAtEnd (t : Text) : Text := t.rtakeWhile isBlank

/-- A text is its last line behind nothing or behind a line feed. -/
theorem exists_lastLine (t : Text) :
    ∃ before, t = before ++ t.lastLine ∧ (before = [] ∨ ∃ u, before = u ++ ['\n']) ∧
      '\n' ∉ t.lastLine := by
  refine ⟨t.rdropWhile (· != '\n'), List.rdropWhile_append_rtakeWhile.symm, ?_, ?_⟩
  · by_cases hnil : t.rdropWhile (· != '\n') = []
    · exact .inl hnil
    · have hlast := List.rdropWhile_last_not (· != '\n') t hnil
      simp only [bne_iff_ne, ne_eq, not_not] at hlast
      have hsplit := List.dropLast_append_getLast hnil
      rw [hlast] at hsplit
      exact .inr ⟨_, hsplit.symm⟩
  · intro hfeed
    exact absurd (List.mem_rtakeWhile_imp hfeed) (by simp)

/-- White space behind something that ends in ink is all the white space at the end. -/
theorem blanksAtEnd_append {t blanks : Text} (h : EndsInInk t) (hblanks : blanks.AllBlank) :
    blanksAtEnd (t ++ blanks) = blanks := by
  obtain ⟨front, c, rfl, hc⟩ := h
  rw [blanksAtEnd, List.rtakeWhile_append_of_pos hblanks,
    List.rtakeWhile_concat_neg _ _ _ (by simp [hc]), List.nil_append]

/-- A last line without ink behind white space without line feeds has none before it, either. -/
theorem not_allBlank_lastLine {t blanks : Text} (h : EndsInInk t) (hfeed : '\n' ∉ blanks) :
    ¬AllBlank (lastLine (t ++ blanks)) := by
  obtain ⟨front, c, rfl, hc⟩ := h
  have hblanks : ∀ a ∈ blanks, (a != '\n') = true := by
    intro a ha
    simpa using ne_of_mem_of_not_mem ha hfeed
  have hc' : (c != '\n') = true := by
    rw [bne_iff_ne]
    rintro rfl
    exact absurd hc (by decide)
  rw [lastLine, List.rtakeWhile_append_of_pos hblanks, List.rtakeWhile_concat, if_pos hc']
  intro hall
  have := hall c (by simp)
  rw [hc] at this
  exact absurd this (by decide)

end Text

namespace Document

variable {t before rest : Text} {i : Nat} {x : Token}

/-- **Leading tokens in the text.** A token leads its line just if nothing but white space stands
    before it on the line. -/
theorem isLeading_iff_allBlank (hx : (ofText t).token? i = some x)
    (hstands : x.Stands t before rest) :
    (ofText t).isLeading (ofText t).leaders i = true ↔ (lastLine (before ++ x.blanks)).AllBlank := by
  rw [isLeading_iff hx]
  constructor
  · rintro (rfl | hfeed) c hc
    · rw [before_eq_nil hx hstands, List.nil_append] at hc
      exact hstands.blanks c ((List.rtakeWhile_suffix _ _).subset hc)
    · rw [lastLine, List.rtakeWhile_append_of_neg hfeed (by simp)] at hc
      exact hstands.blanks c ((List.rtakeWhile_suffix _ _).subset hc)
  · intro hall
    by_contra hnot
    obtain ⟨hzero, hfeed⟩ := not_or.mp hnot
    obtain ⟨i, rfl⟩ := Nat.exists_eq_succ_of_ne_zero hzero
    obtain ⟨y, hy⟩ := token?_of_succ hx
    obtain ⟨before', rest', hstands'⟩ := exists_stands hy
    have hfollows := follows_of_token? hy hx
    -- The token before it ends in ink on the same line.
    rcases hstands'.endsInInk hstands hfollows with hink | ⟨u, hu⟩
    · rw [(hstands'.next hstands hfollows).1] at hall
      exact not_allBlank_lastLine (endsInInk_append before' (endsInInk_append y.blanks hink)) hfeed
        hall
    · exact hfeed (by simp [hu])

/-- **Line leaders are what one sees.** The leader of a line is the least token that starts or ends on
    it, and a line that no token starts or ends on has none. Every token stands behind a part of the
    text up to a line feed, or nothing, and then the start of its line; it leads that line just if
    there is only white space in front of it. -/
theorem leaders_in_text (t : Text) :
    let d := ofText t
    (∀ line,
      (∀ i, d.leaders.leader? line = some i ↔
        IsLeast {j | ∃ x, d.token? j = some x ∧ (x.first.line = line ∨ x.past.line = line)} i) ∧
      (d.leaders.leader? line = none ↔
        ∀ i x, d.token? i = some x → x.first.line ≠ line ∧ x.past.line ≠ line)) ∧
    ∀ i x, d.token? i = some x →
      ∃ before line rest, t = before ++ (line ++ (x.text ++ rest)) ∧
        x.span = ⟨Text.width (before ++ line), Text.width x.text⟩ ∧
        (before = [] ∨ ∃ u, before = u ++ ['\n']) ∧ '\n' ∉ line ∧
        x.first.line = (before ++ line).count '\n' ∧
        x.past.line = (before ++ (line ++ x.text)).count '\n' ∧
        (d.isLeading d.leaders i = true ↔ ∀ c ∈ line, isBlank c = true) := by
  intro d
  refine ⟨fun line => ⟨fun i => ?_, ?_⟩, ?_⟩
  · simp only [leader?_eq_some_iff, touches_iff]
  · simp only [leader?_eq_none_iff, touches_iff, not_exists, not_and, not_or]
  · intro i x hx
    obtain ⟨front, rest, hstands⟩ := exists_stands hx
    obtain ⟨before, hsplit, hbefore, hline⟩ := exists_lastLine (front ++ x.blanks)
    have hfirst : x.first.line = (front ++ x.blanks).count '\n' := by
      rw [hstands.first, Place.line_after]
      exact Nat.zero_add _
    refine ⟨before, _, rest, ?_, ?_, hbefore, hline, ?_, ?_, isLeading_iff_allBlank hx hstands⟩
    · rw [← List.append_assoc, ← hsplit, List.append_assoc]
      exact hstands.text
    · rw [← hsplit, ← hstands.offset]
      rfl
    · rw [← hsplit, hfirst]
    · rw [← List.append_assoc, ← hsplit, List.count_append, past_line_of_token? hx, hfirst]

/-- A comma behind a string that ends on its line does not lead it, but one behind white space of two
    bytes does. -/
theorem leaders_in_text_string :
    let t := ['\'', '\\', '\n', '\'', ',', '\n', '\u00a0', ',', 'a']
    let d := ofText t
    let x : Token := ⟨⟨.comma, [','], true⟩, ['\n', '\u00a0'], 8, ⟨2, 2⟩, ⟨2, 3⟩⟩
    d.token? 2 = some x ∧ d.leaders.leader? 1 = some 0 ∧ d.isLeading d.leaders 1 = false ∧
      IsLeast {j | ∃ x, d.token? j = some x ∧ (x.first.line = 2 ∨ x.past.line = 2)} 2 ∧
      ∃ before line rest, t = before ++ (line ++ (x.text ++ rest)) ∧
        x.span = ⟨Text.width (before ++ line), 1⟩ ∧ ∀ c ∈ line, isBlank c = true := by
  intro t d x
  have hx : d.token? 2 = some x := by decide
  obtain ⟨hleaders, hleading⟩ := leaders_in_text t
  obtain ⟨before, line, rest, hwhole, hspan, -, -, -, -, hiff⟩ := hleading 2 x hx
  exact ⟨hx, by decide, by decide, ((hleaders 2).1 2).mp (by decide), before, line, rest, hwhole, hspan,
    hiff.mp (by decide)⟩

end Document

end CommaStyle
