import CommaStyle.Proofs.Grammar.Cutting.Phrases
import CommaStyle.Proofs.Significance

namespace CommaStyle.Grammar

open Reading Grammar.Derivation

/-!
# Programs that are nested too deeply

The rules pass over every program that can be derived, however deeply it is nested.

* `isSkimmed` — they do so for every phrase, with any number of levels left;
* `Document.outline_of_any_depth` — the outline of a document whose tokens are derived has the list
  literals that are not cut off, and the faults that cutting off brings;
* `Document.programOf` — programs of any depth, in parentheses around parentheses.
-/

/-- A phrase other than an expression is passed over if its parts are. -/
theorem isSkimmed_of_each {levels : Nat} {p : Phrase} {body : List Part} (h : Production p body)
    (d : Derivation body) (hp : p.nesting = 0) (hfits : d.IndicesFit levels)
    (ih : d.Each fun h d => IsSkimmed levels h d) : IsSkimmed levels h d := by
  cases p with
  | program separated =>
    cases separated with
    | true => exact skims_program h d ih
    | false => trivial
  | sequence => exact skims_sequence h d hfits ih
  | more => exact skims_more h d ih
  | expression signed => simp [Phrase.nesting] at hp
  | target signed => exact skims_target h d ih
  | binary signed => exact skims_binary h d ih
  | operands => exact skims_operands h d ih
  | unary signed => exact skims_unary h d ih
  | postfixed => exact skims_postfixed h d ih
  | suffixes => exact skims_suffixes h d ih
  | primary => exact skims_primary h d ih
  | arguments => exact skims_arguments h d ih
  | list => exact skims_list h d ih
  | entries => exact skims_entries h d ih
  | element => exact skims_element h d ih
  | hole => trivial
  | properties => exact skims_properties h d ih
  | property => exact skims_property h d ih

/-- Parts that fit are made of phrases that do. -/
theorem each_isSkimmed {parts : List Part} (d : Derivation parts) {levels : Nat}
    (h : d.Each fun h d =>
      ∀ {levels}, (single h d).IndicesFit levels → IsSkimmed levels h d)
    (hfits : d.IndicesFit levels) : d.Each fun h d => IsSkimmed levels h d := by
  induction d with
  | nil => trivial
  | token k rest ih => exact ih h hfits
  | phrase hprod inner rest _ ih =>
    obtain ⟨hmore, hinner, hrest⟩ := hfits
    exact ⟨h.1 ⟨hmore, hinner, trivial⟩, ih h.2 hrest⟩

/-- **The rules pass over every derivation** whose indices fit. -/
theorem isSkimmed {p : Phrase} {body : List Part} (h : Production p body) (d : Derivation body)
    {levels : Nat} (hfits : (single h d).IndicesFit levels) : IsSkimmed levels h d := by
  revert levels
  refine induct (motive := fun h d =>
    ∀ {levels}, (single h d).IndicesFit levels → IsSkimmed levels h d) ?_ h d
  intro p body h d ih levels hfits
  obtain ⟨-, hinner, -⟩ := hfits
  by_cases hp : p.nesting = 0
  · have hlevels : levels ∈ p.levelsWithin levels := by
      cases p <;> first | rfl | simp [Phrase.nesting] at hp
    exact isSkimmed_of_each h d hp (hinner levels hlevels)
      (each_isSkimmed d ih (hinner levels hlevels))
  · cases p <;> simp only [Phrase.nesting, not_true_eq_false] at hp
    -- Only an expression takes a level. Without one it is cut off, whatever it is made of.
    case expression b =>
      cases levels with
      | zero => exact skims_tooDeep h d
      | succ levels => exact skims_expression h d (each_isSkimmed d ih (hinner levels rfl))

-- An index that does not fit: with one level left, the `,` of `x[a,b]` is taken for the end of it.
example : (expression 1 (ofKinds
    [.name, .leftBracket, .name, .comma, .name, .rightBracket])).2.marks =
      [⟨.nestingTooDeep, 2⟩, ⟨.expectedBracket, 3⟩] := by decide

/-- **Modules are passed over.** A program is read with the list literals that are not cut off and
    with the faults of the levels that it lacks. -/
theorem skims_readModule {body : List Part} (h : Production (.program true) body)
    (d : Derivation body) (hfits : (single h d).IndicesFit maxDepth) :
    (ofKinds d.kinds).Skims maxDepth (single h d) (readModule d.kinds) := by
  have hskimmed : IsSkimmed maxDepth h d := isSkimmed h d hfits
  exact hskimmed rfl (ofKinds d.kinds) [] (List.append_nil _).symm (by simp [Ahead])

end CommaStyle.Grammar

namespace CommaStyle.Document

open Grammar Grammar.Derivation

/-- The list literals and the faults of a document whose tokens are derived. -/
theorem reading_of_derivation {d : Document} {tree : Derivation [Phrase.program true]}
    (hkinds : d.kinds = tree.kinds) (hfits : tree.IndicesFit maxDepth) :
    d.reading.openings = tree.openings maxDepth 0 ∧ d.reading.marks = tree.faults maxDepth 0 := by
  match tree with
  | .phrase h inner .nil =>
    simp only [Derivation.kinds, List.append_nil] at hkinds
    have hskims := skims_readModule h inner hfits
    rw [← hkinds] at hskims
    exact ⟨hskims.openings, hskims.marks⟩

/-- The errors of a document whose tokens are derived are the faults of the derivation. -/
theorem errors_of_derivation {d : Document} (hclosed : d.unclosed = [])
    {tree : Derivation [Phrase.program true]} (hkinds : d.kinds = tree.kinds)
    (hfits : tree.IndicesFit maxDepth) :
    d.outline.errors = (tree.faults maxDepth 0).map
      fun m => ⟨m.fault, d.spanOrEnd (d.significantAt m.position)⟩ := by
  have hreading : d.outline.errors = d.unclosed ++ d.reading.marks.map
      fun m => ⟨m.fault, d.spanOrEnd (d.significantAt m.position)⟩ := rfl
  rw [hreading, hclosed, List.nil_append, (reading_of_derivation hkinds hfits).2]

/-! ### Parentheses around parentheses -/

/-- Parentheses around some arguments. -/
def parenthesized : Derivation [Phrase.arguments] → Derivation [Phrase.binary false]
  | .phrase h inner .nil =>
    operand .parens (.token .leftParen (.phrase h inner (.token .rightParen .nil)))

/-- Arguments in so many parentheses. -/
def wrapped : (count : Nat) → Derivation [Phrase.arguments] → Derivation [Phrase.arguments]
  | 0, args => args
  | count + 1, args =>
    single (.argumentsLast false) (single (.value false) (parenthesized (wrapped count args)))

/-- A program of some arguments in so many parentheses and one more. -/
def programOf (count : Nat) (args : Derivation [Phrase.arguments]) :
    Derivation [Phrase.program true] :=
  single (.programLast true) (single (.sequence false)
    (.phrase (.value false) (parenthesized (wrapped count args)) (single .moreEnd .nil)))

theorem isAtom_name : isAtom .name = true := rfl

/-- A name as the operands of an expression. -/
def operandOfName : Derivation [Phrase.binary false] :=
  operand (.atom .name isAtom_name) (.token .name .nil)

/-- A list literal of two names as the only argument. -/
def listOfNames : Derivation [Phrase.arguments] :=
  let element := single (.value false) operandOfName
  let entries := .phrase (.element false) element
    (.token .comma (single .entriesLast (single (.element false) element)))
  let list := .token .leftBracket (.phrase .entriesNext entries (.token .rightBracket .nil))
  single (.argumentsLast false) (single (.value false) (operand .literal (single .list list)))

/-- Two names as arguments. -/
def twoNames : Derivation [Phrase.arguments] :=
  single (.argumentsNext false) (.phrase (.value false) operandOfName
    (.token .comma (single (.argumentsLast false) (single (.value false) operandOfName))))

section

variable (levels count : Nat) (args : Derivation [Phrase.arguments])

/-- Parentheses stand around the tokens of the arguments. -/
theorem kinds_parenthesized :
    (parenthesized args).kinds = .leftParen :: (args.kinds ++ [.rightParen]) := by
  match args with
  | .phrase h inner .nil => simp [parenthesized, operand]

/-- Parentheses move the faults on by a token. -/
theorem faults_parenthesized (start : Nat) :
    (parenthesized args).faults levels start = args.faults levels (start + 1) := by
  match args with
  | .phrase h inner .nil =>
    simp [parenthesized, operand, faults, Phrase.levelsWithin, Phrase.isItem]

/-- Parentheses move the list literals on by a token. -/
theorem brackets_parenthesized (around start : Nat) :
    (parenthesized args).brackets around start = args.brackets around (start + 1) := by
  match args with
  | .phrase h inner .nil => simp [parenthesized, operand, brackets, Phrase.nesting]

theorem indicesFit_parenthesized :
    (parenthesized args).IndicesFit levels ↔ args.IndicesFit levels := by
  match args with
  | .phrase h inner .nil => simp [parenthesized, operand, IndicesFit, Phrase.levelsWithin]

theorem itemsFit_parenthesized :
    (parenthesized args).ItemsFit levels ↔ args.ItemsFit levels := by
  match args with
  | .phrase h inner .nil =>
    simp [parenthesized, operand, ItemsFit, Phrase.levelsWithin, Phrase.isItem]

/-- So many parentheses, the arguments, and as many parentheses again. -/
theorem kinds_programOf :
    (programOf count args).kinds = List.replicate (count + 1) .leftParen ++
      (args.kinds ++ List.replicate (count + 1) .rightParen) := by
  have hwrapped : (wrapped count args).kinds =
      List.replicate count .leftParen ++ (args.kinds ++ List.replicate count .rightParen) := by
    induction count with
    | zero => simp [wrapped]
    | succ count ih =>
      simp [wrapped, kinds_parenthesized, ih, List.replicate_succ, ← List.replicate_succ']
  simp [programOf, kinds_parenthesized, hwrapped, List.replicate_succ, ← List.replicate_succ']

/-- The faults of arguments in parentheses. Each pair of them takes a level. -/
theorem faults_programOf :
    (programOf count args).faults (levels + count + 1) 0 = args.faults levels (count + 1) := by
  have hwrapped : ∀ start, (wrapped count args).faults (levels + count) start =
      args.faults levels (start + count) := by
    induction count with
    | zero => exact fun start => rfl
    | succ count ih =>
      intro start
      simp [wrapped, single, faults, Phrase.levelsWithin, ← Nat.add_assoc, faults_parenthesized, ih,
        Nat.add_right_comm start 1]
  simp [programOf, single, faults, Phrase.levelsWithin, faults_parenthesized, hwrapped,
    Nat.add_comm 1]

/-- Parentheses move the list literals on by their number, and stand around each of them. -/
theorem brackets_programOf :
    (programOf count args).brackets 0 0 = args.brackets (count + 1) (count + 1) := by
  have hwrapped : ∀ around start, (wrapped count args).brackets around start =
      args.brackets (around + count) (start + count) := by
    induction count with
    | zero => exact fun around start => rfl
    | succ count ih =>
      intro around start
      simp [wrapped, single, brackets, Phrase.nesting, ← Nat.add_assoc, brackets_parenthesized, ih,
        Nat.add_right_comm _ 1]
  simp [programOf, single, brackets, Phrase.nesting, brackets_parenthesized, hwrapped,
    Nat.add_comm 1]

/-- Parentheses take levels from the arguments, and hold no sequence of their own. -/
theorem indicesFit_programOf :
    (programOf count args).IndicesFit (levels + count + 1) ↔ args.IndicesFit levels := by
  have hwrapped : (wrapped count args).IndicesFit (levels + count) ↔ args.IndicesFit levels := by
    induction count with
    | zero => exact Iff.rfl
    | succ count ih =>
      simp [wrapped, single, IndicesFit, Phrase.levelsWithin, ← Nat.add_assoc,
        indicesFit_parenthesized, ih]
  simp [programOf, single, IndicesFit, Phrase.levelsWithin, indicesFit_parenthesized, hwrapped]

/-- Parentheses take levels from the arguments, and have no comma behind them. -/
theorem itemsFit_programOf :
    (programOf count args).ItemsFit (levels + count + 1) ↔ args.ItemsFit levels := by
  have hwrapped : (wrapped count args).ItemsFit (levels + count) ↔ args.ItemsFit levels := by
    induction count with
    | zero => exact Iff.rfl
    | succ count ih =>
      simp [wrapped, single, ItemsFit, Phrase.levelsWithin, ← Nat.add_assoc,
        itemsFit_parenthesized, ih]
  simp [programOf, single, ItemsFit, Phrase.levelsWithin, itemsFit_parenthesized, hwrapped]

end

/-- A text in so many parentheses. -/
def inParens (count : Nat) (t : Text) : Text :=
  List.replicate count '(' ++ (t ++ List.replicate count ')')

/-- The tokens that close so many parentheses. -/
def closers (count : Nat) : List Piece := List.replicate count ⟨[], ⟨.rightParen, [')'], true⟩⟩

/-- So many copies of a token that fits in front of anything. -/
theorem tiles_replicate {x : Lexeme} (hfits : ∀ rest, x.Fits rest) (count : Nat)
    {pieces : List Piece} (h : Layout.Tiles pieces []) :
    Layout.Tiles (List.replicate count ⟨[], x⟩ ++ pieces) [] := by
  induction count with
  | zero => exact h
  | succ count ih => exact ⟨by simp [Text.AllBlank], hfits _, ih⟩

/-- Closing parentheses tile a text. -/
theorem tiles_closers (count : Nat) : Layout.Tiles (closers count) [] := by
  have hfits : ∀ rest, Lexeme.Fits ⟨.rightParen, [')'], true⟩ rest :=
    fun _ => ⟨')', [], rfl, by decide, rfl⟩
  have hnil : Layout.Tiles [] [] := by simp [Layout.Tiles, Text.AllBlank]
  simpa [closers] using tiles_replicate hfits count hnil

/-- The tokens of a text in parentheses, if its own are closed and no comments. -/
theorem kinds_inParens {count : Nat} {xs : List Lexeme}
    (htiles : Layout.Tiles (xs.map (⟨[], ·⟩) ++ closers count) [])
    (hplain : ∀ x ∈ xs, x.kind.isSignificant = true ∧ x.closed = true) :
    let d := ofText (inParens count (xs.flatMap (·.text)))
    d.unclosed = [] ∧ d.kinds =
      List.replicate count .leftParen ++ (xs.map (·.kind) ++ List.replicate count .rightParen) := by
  have hfits : ∀ rest, Lexeme.Fits ⟨.leftParen, ['('], true⟩ rest :=
    fun _ => ⟨'(', [], rfl, by decide, rfl⟩
  have hpieces := congrArg Layout.pieces (Layout.ofText_toText (tiles_replicate hfits count htiles))
  simp only [closers, Layout.toText, List.flatMap_append, List.flatMap_replicate, List.flatMap_map,
    List.nil_append, List.append_nil, List.flatten_replicate_singleton] at hpieces
  have hall : ∀ p ∈ (Layout.ofText (inParens count (xs.flatMap (·.text)))).pieces,
      p.lexeme.kind.isSignificant = true ∧ p.lexeme.closed = true := by
    intro p hp
    rw [inParens, hpieces] at hp
    simp only [List.mem_append, List.mem_map] at hp
    rcases hp with hp | ⟨x, hx, rfl⟩ | hp
    · simp [List.eq_of_mem_replicate hp, Kind.isSignificant, Kind.isComment]
    · exact hplain x hx
    · simp [List.eq_of_mem_replicate hp, Kind.isSignificant, Kind.isComment]
  refine ⟨unclosed_ofText fun p hp => (hall p hp).2, ?_⟩
  rw [kinds_ofText, List.filter_eq_self.mpr, inParens, hpieces]
  · simp
  · intro k hk
    obtain ⟨p, hp, rfl⟩ := List.mem_map.mp hk
    exact (hall p hp).1

/-- **Nesting without end.** A document whose tokens are all closed and can be derived, with
    expressions nested in one another as deeply as may be, has just the list literals whose opening
    brackets stand in no more than 256 expressions. Its errors are the expressions that stand in 256
    others, and the commas directly behind those of them that are arguments or spread properties; if
    there are no such commas, all errors say that the nesting is too deep. No index that stands in
    256 expressions may hold a comma. -/
theorem outline_of_any_depth (d : Document) (hclosed : d.unclosed = [])
    (tree : Derivation [Phrase.program true]) (hkinds : d.kinds = tree.kinds)
    (hindices : tree.IndicesFit 256) :
    d.outline.lists.map (·.opening) =
        ((tree.brackets 0 0).filter (·.2 ≤ 256)).map (fun b => d.significantAt b.1) ∧
      d.outline.errors = (tree.faults 256 0).map
        (fun m => ⟨m.fault, d.spanOrEnd (d.significantAt m.position)⟩) ∧
      (∀ e ∈ d.outline.errors,
        e.fault.message = "nesting too deep" ∨ e.fault.message = "unexpected ','") ∧
      (tree.ItemsFit 256 → ∀ e ∈ d.outline.errors, e.fault.message = "nesting too deep") := by
  have hopenings := (reading_of_derivation hkinds hindices).1
  have herrors := errors_of_derivation hclosed hkinds hindices
  refine ⟨?_, herrors, fun e he => ?_, fun hitems e he => ?_⟩
  · have hlists : d.outline.lists.map (·.opening) = d.reading.openings.map d.significantAt := by
      rw [outline_lists, Reading.openings, List.map_map, List.map_map]
      rfl
    rw [hlists, hopenings, tree.openings_eq maxDepth 0 0, List.map_map]
    rfl
  · rw [herrors] at he
    obtain ⟨m, hm, rfl⟩ := List.mem_map.mp he
    rcases tree.fault_of_mem_faults hm with hfault | ⟨hfault, -⟩
    · exact .inl (by rw [hfault]; rfl)
    · exact .inr (by rw [hfault]; rfl)
  · rw [herrors] at he
    obtain ⟨m, hm, rfl⟩ := List.mem_map.mp he
    rcases tree.fault_of_mem_faults hm with hfault | ⟨-, hnot⟩
    · rw [hfault]
      rfl
    · exact absurd hitems hnot

/-- The elements of a list literal in 255 parentheses are cut off, but the list literal is not. -/
theorem outline_of_any_depth_list :
    let d := ofText (inParens 255 ['[', 'a', ',', 'b', ']'])
    let tree := programOf 254 listOfNames
    d.unclosed = [] ∧ d.kinds = tree.kinds ∧ tree.IndicesFit 256 ∧ tree.ItemsFit 256 ∧
      d.outline.lists.map (·.opening) = [d.significantAt 255] ∧
      d.outline.errors.map (·.fault.message) = ["nesting too deep", "nesting too deep"] := by
  intro d tree
  let xs : List Lexeme := [⟨.leftBracket, ['['], true⟩, ⟨.name, ['a'], true⟩,
    ⟨.comma, [','], true⟩, ⟨.name, ['b'], true⟩, ⟨.rightBracket, [']'], true⟩]
  have htiles : Layout.Tiles (xs.map (⟨[], ·⟩) ++ closers 255) [] := by
    refine ⟨?_, ⟨'[', [], rfl, by decide, rfl⟩, ?_, ⟨'a', [], rfl, by decide, rfl⟩,
      ?_, ⟨',', [], rfl, by decide, rfl⟩, ?_, ⟨'b', [], rfl, by decide, rfl⟩,
      ?_, ⟨']', [], rfl, by decide, rfl⟩, tiles_closers 255⟩ <;> simp [Text.AllBlank]
  have htokens := kinds_inParens htiles (by decide)
  have hclosed : d.unclosed = [] := htokens.1
  have hkinds : d.kinds = tree.kinds := htokens.2.trans (kinds_programOf 254 listOfNames).symm
  have hindices : tree.IndicesFit 256 := (indicesFit_programOf 1 254 listOfNames).mpr
    (by simp [listOfNames, operandOfName, operand, IndicesFit, Phrase.levelsWithin])
  have hitems : tree.ItemsFit 256 := (itemsFit_programOf 1 254 listOfNames).mpr
    (by simp [listOfNames, operandOfName, operand, ItemsFit, Phrase.levelsWithin, Phrase.isItem])
  have hfaults : tree.faults 256 0 = listOfNames.faults 1 255 := faults_programOf 1 254 listOfNames
  obtain ⟨hlists, herrors, -⟩ := outline_of_any_depth d hclosed tree hkinds hindices
  refine ⟨hclosed, hkinds, hindices, hitems, ?_, ?_⟩
  · rw [hlists, brackets_programOf]
    rfl
  · rw [herrors, hfaults]
    rfl

/-- Two arguments that are cut off. The comma between them is reported as well. -/
theorem errors_of_cut_arguments :
    let d := ofText (inParens 256 ['a', ',', 'b'])
    let tree := programOf 255 twoNames
    d.unclosed = [] ∧ d.kinds = tree.kinds ∧ tree.IndicesFit 256 ∧
      d.outline.errors.map (·.fault.message) =
        ["nesting too deep", "unexpected ','", "nesting too deep"] := by
  intro d tree
  let xs : List Lexeme := [⟨.name, ['a'], true⟩, ⟨.comma, [','], true⟩, ⟨.name, ['b'], true⟩]
  have htiles : Layout.Tiles (xs.map (⟨[], ·⟩) ++ closers 256) [] := by
    refine ⟨?_, ⟨'a', [], rfl, by decide, rfl⟩, ?_, ⟨',', [], rfl, by decide, rfl⟩,
      ?_, ⟨'b', [], rfl, by decide, rfl⟩, tiles_closers 256⟩ <;> simp [Text.AllBlank]
  have htokens := kinds_inParens htiles (by decide)
  have hclosed : d.unclosed = [] := htokens.1
  have hkinds : d.kinds = tree.kinds := htokens.2.trans (kinds_programOf 255 twoNames).symm
  have hindices : tree.IndicesFit 256 := (indicesFit_programOf 0 255 twoNames).mpr
    (by simp [twoNames, operandOfName, operand, IndicesFit, Phrase.levelsWithin])
  have hfaults : tree.faults maxDepth 0 = twoNames.faults 0 256 := faults_programOf 0 255 twoNames
  refine ⟨hclosed, hkinds, hindices, ?_⟩
  rw [errors_of_derivation hclosed hkinds hindices, hfaults]
  rfl

end CommaStyle.Document
