import CommaStyle.Proofs.Layouts
import CommaStyle.Proofs.Editing
import CommaStyle.Spacing

namespace CommaStyle

/-!
# Documents that look alike

Apart from the white space around it, a token is its lexeme and the lines on which it starts and
ends: its `Token.look`. Nearly everything that is found in a document depends on the looks of its
tokens alone.

* `Token.Follows` says how a token stands behind the one in front of it;
* `Document.Alike` — token by token, two documents look the same. They then have the same
  significant tokens, list literals, exempt commas and line leaders;
* `Document.anchors` gives each syntax error the token that it is reported at, or the end of the
  text, and `Document.outline_errors` finds the errors in it.
-/

/-- The lines passed are counted by their line feeds. -/
theorem Place.line_after (p : Place) (t : Text) : (p.after t).line = p.line + t.count '\n' := by
  induction t generalizing p with
  | nil => simp [after]
  | cons c t ih =>
    have hstep : p.after (c :: t) = (p.step c).after t := rfl
    rw [hstep, ih, step]
    by_cases hc : c = '\n'
    · simp [hc]
      omega
    · simp [hc]

namespace Token

/-! ### Tokens in their places -/

/-- The piece of a layout that a token comes from. -/
def piece (t : Token) : Piece := ⟨t.blanks, t.toLexeme⟩

/-- A token apart from the white space around it: its lexeme, and the lines on which it starts and
    ends. -/
def look (t : Token) : Lexeme × Nat × Nat := (t.toLexeme, t.first.line, t.past.line)

/-- Placing pieces changes nothing of them. -/
theorem map_piece_place (offset : Nat) (start : Place) (pieces : List Piece) :
    (place offset start pieces).map piece = pieces := by
  induction pieces generalizing offset start with
  | nil => rfl
  | cons p pieces ih => simp [place, piece, ih]

/-- A token ends as many lines below its first one as it has line feeds. -/
theorem past_line_of_mem {offset : Nat} {start : Place} {pieces : List Piece} {t : Token}
    (h : t ∈ place offset start pieces) : t.past.line = t.first.line + t.text.count '\n' := by
  induction pieces generalizing offset start with
  | nil => simp [place] at h
  | cons p pieces ih =>
    rw [place] at h
    rcases List.mem_cons.mp h with rfl | h
    · exact Place.line_after _ _
    · exact ih h

/-- How a token stands behind the one in front of it. -/
structure Follows (a b : Token) : Prop where
  offset : b.offset = a.span.stop + Text.width b.blanks
  line : b.first.line = a.past.line + b.blanks.count '\n'

/-- Tokens placed behind one another follow each other. -/
theorem follows_of_place {offset : Nat} {start : Place} {pieces : List Piece} {i : Nat} {a b : Token}
    (ha : (place offset start pieces)[i]? = some a)
    (hb : (place offset start pieces)[i + 1]? = some b) : Follows a b := by
  induction pieces generalizing offset start i with
  | nil => simp [place] at ha
  | cons p pieces ih =>
    rw [place] at ha hb
    cases i with
    | succ i => exact ih ha hb
    | zero =>
      cases pieces with
      | nil => simp [place] at hb
      | cons q pieces =>
        simp only [place, List.getElem?_cons_zero, List.getElem?_cons_succ, Option.some.injEq]
          at ha hb
        subst ha hb
        exact ⟨rfl, Place.line_after _ _⟩

/-- Pieces with the same lexemes and as many line feeds between them give tokens that look the
    same. -/
theorem map_look_place {pieces pieces' : List Piece}
    (h : List.Forall₂ (fun p q => p.lexeme = q.lexeme ∧ p.blanks.count '\n' = q.blanks.count '\n')
      pieces pieces') {offset offset' : Nat} {start start' : Place} (hline : start.line = start'.line) :
    (place offset start pieces).map look = (place offset' start' pieces').map look := by
  induction h generalizing offset offset' start start' with
  | nil => rfl
  | cons hpq _ ih =>
    obtain ⟨hlexeme, hblanks⟩ := hpq
    simp only [place, look, List.map_cons, List.cons.injEq, Place.line_after, hlexeme, hblanks,
      hline, true_and]
    exact ih (by simp [Place.line_after, hblanks, hline])

end Token

namespace Document

/-- The tokens of a text are the pieces of its layout in their places. -/
theorem token?_ofText (t : Text) (i : Nat) :
    (ofText t).token? i = (Token.place 0 Place.origin (Layout.ofText t).pieces)[i]? := by
  simp [token?, ofText]

/-- A number names no token just if it is past the last one. -/
theorem token?_eq_none_iff (d : Document) (i : Nat) : d.token? i = none ↔ d.size ≤ i := by
  simp [token?, size]

/-- A number that names a token is in range. -/
theorem lt_size_of_token? {d : Document} {i : Nat} {x : Token} (hx : d.token? i = some x) :
    i < d.size := by
  rw [← Nat.not_le, ← token?_eq_none_iff, hx]
  simp

/-- The numbers name the tokens in order. -/
theorem map_token?_ids (d : Document) : d.ids.map d.token? = d.tokens.toList.map some := by
  refine List.ext_getElem (by simp [ids, size]) ?_
  intro i hi _
  have hsize : i < d.tokens.size := by simpa [ids, size] using hi
  simp [ids, token?, hsize]

/-! ### Likeness -/

/-- Whether two documents look the same, token by token. -/
def Alike (d e : Document) : Prop := ∀ i, (d.token? i).map Token.look = (e.token? i).map Token.look

namespace Alike

variable {d e : Document} (h : Alike d e)

include h

/-- Documents that look alike have as many tokens. -/
theorem size_eq : d.size = e.size := by
  -- The size is the first number without a token.
  have hnone : ∀ i, d.size ≤ i ↔ e.size ≤ i := by
    intro i
    rw [← token?_eq_none_iff, ← token?_eq_none_iff, ← Option.map_eq_none_iff, h i,
      Option.map_eq_none_iff]
  exact Nat.le_antisymm ((hnone _).mpr (Nat.le_refl _)) ((hnone _).mp (Nat.le_refl _))

theorem ids_eq : d.ids = e.ids := by rw [ids, ids, h.size_eq]

/-- What can be said of a look can be said of the tokens of either document. -/
theorem map_token? {α : Type} (f : Token → α) (g : Lexeme × Nat × Nat → α)
    (hf : ∀ t, f t = g t.look) (i : Nat) : (d.token? i).map f = (e.token? i).map f := by
  have hfg : f = g ∘ Token.look := funext hf
  rw [hfg, ← Option.map_map, ← Option.map_map, h i]

/-- What depends on the looks of tokens alone is the same for all of them. -/
theorem map_tokens {α : Type} (f : Token → α) (g : Lexeme × Nat × Nat → α)
    (hf : ∀ t, f t = g t.look) : d.tokens.toList.map f = e.tokens.toList.map f := by
  apply List.ext_getElem?
  intro i
  simpa [token?] using h.map_token? f g hf i

theorem kind?_eq : d.kind? = e.kind? := funext (h.map_token? _ (·.1.kind) fun _ => rfl)

/-- They have commas at the same numbers. -/
theorem isComma_eq : d.isComma = e.isComma := by
  funext i
  rw [isComma, isComma, h.kind?_eq]

theorem significant_eq : d.significant = e.significant := by
  rw [significant, significant, h.ids_eq, h.kind?_eq]

/-- The grammar reads them alike. -/
theorem reading_eq : d.reading = e.reading := by
  rw [reading, reading, kinds, kinds, h.significant_eq, h.kind?_eq]

/-- A walk over comments stops at the same token. -/
theorem significantFrom?_eq (count i : Nat) :
    d.significantFrom? count i = e.significantFrom? count i := by
  induction count generalizing i with
  | zero => rfl
  | succ count ih => rw [significantFrom?, significantFrom?, h.kind?_eq, ih]

theorem nextSignificant?_eq : d.nextSignificant? = e.nextSignificant? := by
  funext i
  rw [nextSignificant?, nextSignificant?, h.size_eq, h.significantFrom?_eq]

/-- The walk along the entries of a list literal finds the same commas. -/
theorem holeCommasFrom_eq (before : Nat) (entries : List (Option Element)) :
    d.holeCommasFrom before entries = e.holeCommasFrom before entries := by
  induction entries generalizing before with
  | nil => rfl
  | cons entry entries ih =>
    cases entry <;> simp only [holeCommasFrom, h.nextSignificant?_eq, h.isComma_eq, ih]

/-- The same commas are behind holes. -/
theorem exempt_eq (lists : List ListNode) : d.exempt lists = e.exempt lists := by
  have hholes : d.holeCommas = e.holeCommas := by
    funext l
    exact h.holeCommasFrom_eq l.opening l.elements
  rw [exempt, exempt, h.ids_eq, hholes]

/-- Each line has the same leader. -/
theorem leaders_eq : d.leaders = e.leaders := by
  rw [leaders, leaders, h.ids_eq]
  congr 1
  funext leaders i
  rw [h.map_token? (leaders.touch i) (fun l => (leaders.claim l.2.1 i).claim l.2.2 i) fun _ => rfl]

/-- The same tokens lead their lines. -/
theorem isLeading_eq (leaders : Leaders) (i : Nat) :
    d.isLeading leaders i = e.isLeading leaders i := by
  have hleads := h.map_token? (fun t => leaders.leader? t.first.line == some i)
    (fun l => leaders.leader? l.2.1 == some i) (fun _ => rfl) i
  rw [isLeading, isLeading]
  cases hd : d.token? i <;> cases he : e.token? i <;> simp_all

end Alike

/-! ### Outlines -/

/-- The token at a position among the significant ones; behind the last, the number of tokens. -/
def significantAt (d : Document) (position : Nat) : Nat := d.significant.toArray.getD position d.size

/-- The list literals are those that the grammar has read, at the tokens that it names. -/
theorem outline_lists (d : Document) :
    d.outline.lists = d.reading.lists.map (ListNode.ofNode d.significantAt) := rfl

/-- A position stands for a token or for the end of the text. -/
theorem significantAt_le (d : Document) (position : Nat) : d.significantAt position ≤ d.size := by
  rw [significantAt, Array.getD_eq_getD_getElem?]
  rcases hp : d.significant.toArray[position]? with _ | i
  · simp
  · have hi : i ∈ d.significant := by simpa using Array.mem_of_getElem? hp
    have : i < d.size := by simpa [ids] using List.mem_of_mem_filter hi
    simpa using Nat.le_of_lt this

/-- The span of a number that names a token. -/
theorem spanOrEnd_of_token? {d : Document} {i : Nat} {x : Token} (h : d.token? i = some x) :
    d.spanOrEnd i = x.span := by
  rw [spanOrEnd, h]

/-- The number past the last token stands for the end of the text. -/
theorem spanOrEnd_size (d : Document) : d.spanOrEnd d.size = Span.empty d.width := by
  rw [spanOrEnd, (d.token?_eq_none_iff _).mpr (Nat.le_refl _)]

/-- The errors that the grammar finds in a document. -/
def misread (d : Document) : List SyntaxError :=
  d.reading.marks.map fun m => ⟨m.fault, d.spanOrEnd (d.significantAt m.position)⟩

/-- Syntax errors are unclosed tokens, and then what the grammar has met. -/
theorem outline_errors_eq_append (d : Document) : d.outline.errors = d.unclosed ++ d.misread := rfl

/-- The syntax errors of a document, each with the token that it is reported at; the number of tokens
    stands for the end of the text. -/
def anchors (d : Document) : List (Fault × Nat) :=
  (d.ids.filterMap fun i => ((d.token? i).bind Token.fault?).map (·, i)) ++
    d.reading.marks.map fun m => (m.fault, d.significantAt m.position)

/-- A fault is anchored at a token or at the end of the text. -/
theorem le_size_of_mem_anchors {d : Document} {a : Fault × Nat} (h : a ∈ d.anchors) :
    a.2 ≤ d.size := by
  rcases List.mem_append.mp h with h | h
  · obtain ⟨i, hi, hfault⟩ := List.mem_filterMap.mp h
    obtain ⟨fault, -, rfl⟩ := Option.map_eq_some_iff.mp hfault
    exact Nat.le_of_lt (by simpa [ids] using hi)
  · obtain ⟨m, -, rfl⟩ := List.mem_map.mp h
    exact d.significantAt_le _

/-- The unclosed tokens, found by their numbers. -/
theorem unclosed_eq (d : Document) :
    d.unclosed = d.ids.filterMap fun i =>
      ((d.token? i).bind Token.fault?).map (⟨·, d.spanOrEnd i⟩) := by
  -- Faults are found token by token, and here by the numbers of the tokens.
  have hlist : d.unclosed = (d.tokens.toList.map some).filterMap fun t =>
      t.bind fun t => t.fault?.map (⟨·, t.span⟩) := by
    rw [unclosed, List.filterMap_map]
    rfl
  rw [hlist, ← map_token?_ids, List.filterMap_map]
  congr 1
  funext i
  cases ht : d.token? i <;> simp [spanOrEnd, ht]

/-- Every syntax error is reported at the token that it belongs to. -/
theorem outline_errors (d : Document) :
    d.outline.errors = d.anchors.map fun a => ⟨a.1, d.spanOrEnd a.2⟩ := by
  rw [anchors, List.map_append, List.map_filterMap, List.map_map]
  have hunclosed := d.unclosed_eq
  simp only [outline, hunclosed, Option.map_map]
  rfl

/-- A position stands for the same token in documents that look alike. -/
theorem Alike.significantAt_eq {d e : Document} (h : Alike d e) :
    d.significantAt = e.significantAt := by
  funext position
  rw [significantAt, significantAt, h.significant_eq, h.size_eq]

/-- Documents that look alike have the same list literals. -/
theorem Alike.lists_eq {d e : Document} (h : Alike d e) : d.outline.lists = e.outline.lists := by
  rw [outline_lists, outline_lists, h.reading_eq, h.significantAt_eq]

/-- Documents that look alike have the same faults at the same tokens. -/
theorem Alike.anchors_eq {d e : Document} (h : Alike d e) : d.anchors = e.anchors := by
  have hfault : (fun i => (d.token? i).bind Token.fault?) =
      fun i => (e.token? i).bind Token.fault? := by
    funext i
    have := h.map_token? Token.fault?
      (fun l => if l.1.closed then none else Fault.ofUnclosed? l.1.kind) (fun _ => rfl) i
    cases hd : d.token? i <;> cases he : e.token? i <;> simp_all
  rw [anchors, anchors, h.ids_eq, h.reading_eq, h.significantAt_eq]
  simp only [funext_iff] at hfault
  simp only [hfault]

end Document

end CommaStyle
