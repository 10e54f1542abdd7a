import CommaStyle.Proofs.Grammar.Cutting
import CommaStyle.Proofs.Grammar.Guarded
import Mathlib.Order.Bounds.Defs

namespace CommaStyle.Grammar

open Reading Grammar.Derivation

/-!
# Passing over one expression

An expression that is not read is passed over by counting brackets, whatever their kinds. This finds
the end of every expression that can be derived, and a definite place in all other tokens.

* `EndsAt` — where tokens close as many brackets as they open and one follows that ends an expression;
* `isLeast_nestedLength` — the count stops at the first such place, or else behind the last token;
* `Guarded.turnsTaken` — the first turns of a repeated step, and `Guarded.run_turnsTaken_skipTurn`
  what is counted in them: the brackets opened and not closed, so that none is closed too often;
* `Reading.skipNested_passes_one` — what is passed over is one expression, if there is one.
-/

/-- Whether a token opens a bracket. -/
def opensBracket : Kind → Bool
  | .leftParen | .leftBracket | .leftBrace => true
  | _ => false

/-- Whether a token closes a bracket. -/
def closesBracket : Kind → Bool
  | .rightParen | .rightBracket | .rightBrace => true
  | _ => false

/-- Whether the first `i` of some tokens close as many brackets as they open and `opened` more, and a
    comma, a semicolon or a closing bracket follows them. -/
def EndsAt (opened : Nat) (w : List Kind) (i : Nat) : Prop :=
  opened + (w.take i).countP opensBracket = (w.take i).countP closesBracket ∧
    ∃ k, w[i]? = some k ∧ endsExpression k = true

/-! ### The first place where an expression can end -/

/-- A token is left where no bracket is open and the token ends an expression. -/
theorem openPast?_eq_none_iff {opened : Nat} {k : Kind} :
    openPast? opened k = none ↔ opened = 0 ∧ endsExpression k = true := by
  cases k <;> simp [openPast?, endsExpression]

/-- A token that is passed over changes the count by the bracket that it is. -/
theorem openPast?_balance {opened opened' : Nat} {k : Kind} (h : openPast? opened k = some opened') :
    opened + (if opensBracket k then 1 else 0) = (if closesBracket k then 1 else 0) + opened' := by
  cases k <;> simp [openPast?, opensBracket, closesBracket] at h ⊢ <;> omega

section

variable {opened opened' i : Nat} {k : Kind} {w : List Kind}

/-- An expression can end in front of the first token just if that token is left. -/
theorem endsAt_zero : EndsAt opened (k :: w) 0 ↔ openPast? opened k = none := by
  simp [EndsAt, openPast?_eq_none_iff]

/-- Behind a token that is passed over, an expression can end where it can with the count it
    leaves. -/
theorem endsAt_succ (h : openPast? opened k = some opened') :
    EndsAt opened (k :: w) (i + 1) ↔ EndsAt opened' w i := by
  have hbalance := openPast?_balance h
  simp only [EndsAt, List.take_succ_cons, List.countP_cons, List.getElem?_cons_succ]
  refine and_congr_left fun _ => ?_
  omega

theorem nestedLength_of_none (h : openPast? opened k = none) : nestedLength opened (k :: w) = 0 := by
  rw [nestedLength_cons, h]
  rfl

theorem nestedLength_of_some (h : openPast? opened k = some opened') :
    nestedLength opened (k :: w) = nestedLength opened' w + 1 := by
  rw [nestedLength_cons, h]
  rfl

end

/-- **The count stops at the first place where an expression can end.** -/
theorem isLeast_nestedLength (opened : Nat) (w : List Kind) :
    IsLeast {i | EndsAt opened w i ∨ i = w.length} (nestedLength opened w) := by
  induction w generalizing opened with
  | nil => exact ⟨.inr rfl, fun i _ => Nat.zero_le i⟩
  | cons k w ih =>
    cases hnext : openPast? opened k with
    | none =>
      rw [nestedLength_of_none hnext]
      exact ⟨.inl (endsAt_zero.mpr hnext), fun i _ => Nat.zero_le i⟩
    | some opened' =>
      obtain ⟨hends, hleast⟩ := ih opened'
      rw [nestedLength_of_some hnext]
      refine ⟨hends.imp (endsAt_succ hnext).mpr (congrArg (· + 1)), fun i hi => ?_⟩
      -- The first token is passed over, so that no expression ends in front of it.
      cases i with
      | zero =>
        rcases hi with hi | hi
        · rw [endsAt_zero.mp hi] at hnext
          cases hnext
        · cases hi
      | succ i =>
        exact Nat.succ_le_succ (hleast (hi.imp (endsAt_succ hnext).mp Nat.succ.inj))

/-! ### The count on the way -/

/-- The reading with so many more tokens behind it. -/
def Reading.past (r : Reading) (count : Nat) : Reading :=
  { r with position := r.position + count, rest := r.rest.drop count }

/-- So many tokens and one more are that one and then the others. -/
theorem Reading.past_succ {r : Reading} {k : Kind} {w : List Kind} (h : r.rest = k :: w)
    (count : Nat) : r.past (count + 1) = r.advance.past count := by
  rw [advance_of_rest h, past, past, h, List.drop_succ_cons, Nat.add_assoc, Nat.add_comm 1]

namespace Guarded

/-- The first turns of a repeated step, as many as are asked for, and what the last one hands on. -/
def turnsTaken {σ : Type} (turn : σ → Guarded (Option σ)) : (count : Nat) → σ → Guarded (Option σ)
  | 0, a => return some a
  | count + 1, a => do
    match ← turn a with
    | none => return none
    | some b => turnsTaken turn count b

/-- A turn passes over a token that is not left, and counts it. -/
theorem run_skipTurn_of_some {opened opened' : Nat} {r : Reading} {k : Kind} {w : List Kind}
    (hr : r.rest = k :: w) (h : openPast? opened k = some opened') (depth : Nat) :
    (skipTurn opened).run ⟨r, depth⟩ = some (some opened', ⟨r.advance, depth⟩) := by
  have hpeek := peek?_of_rest hr
  cases k <;> cases opened <;> simp [openPast?] at h <;> subst h <;> simp [skipTurn, hpeek, minus]

/-- **The count on the way.** As long as tokens are passed over, the count is that of the brackets
    opened and not closed. -/
theorem run_turnsTaken_skipTurn {i opened : Nat} {r : Reading}
    (hi : i ≤ nestedLength opened r.rest) (depth : Nat) :
    ∃ opened', opened + (r.rest.take i).countP opensBracket =
        (r.rest.take i).countP closesBracket + opened' ∧
      (turnsTaken skipTurn i opened).run ⟨r, depth⟩ = some (some opened', ⟨r.past i, depth⟩) := by
  induction i generalizing opened r with
  | zero => exact ⟨opened, by simp, rfl⟩
  | succ i ih =>
    cases hr : r.rest with
    | nil => simp [hr, nestedLength] at hi
    | cons k w =>
      cases hnext : openPast? opened k with
      | none => simp [hr, nestedLength_of_none hnext] at hi
      | some next =>
        have hrest : r.advance.rest = w := by rw [advance_of_rest hr]
        have hturn := run_skipTurn_of_some hr hnext depth
        have hbalance := openPast?_balance hnext
        rw [hr, nestedLength_of_some hnext, ← hrest] at hi
        obtain ⟨opened', hcount, hrun⟩ := ih (Nat.le_of_succ_le_succ hi)
        rw [hrest] at hcount
        refine ⟨opened', ?_, ?_⟩
        · simp only [List.take_succ_cons, List.countP_cons]
          omega
        · simp [turnsTaken, hturn, hrun, past_succ hr]

end Guarded

/-! ### One expression -/

namespace Reading

/-- **One expression is passed over.** If an expression is ahead, and behind it a comma, a semicolon, a
    closing bracket or nothing, then all of it is passed over and nothing else. Whatever is ahead,
    tokens are passed over to the first place where as many brackets are closed as were opened and a
    comma, a semicolon or a closing bracket follows, or else to the last one. No subtraction fails in
    counting the brackets: after each turn the count and the brackets closed make up those opened. -/
theorem skipNested_passes_one (r : Reading) (depth : Nat) :
    (∀ (b : Bool) (d : Derivation [Phrase.expression b]) (rest : List Kind),
      r.rest = d.kinds ++ rest → Ahead endsExpression rest →
        r.skipNested = { r with position := r.position + d.kinds.length, rest := rest }) ∧
      Guarded.skipNested.run ⟨r, depth⟩ = some ((), ⟨r.skipNested, depth⟩) ∧
      ∃ length, IsLeast {i | EndsAt 0 r.rest i ∨ i = r.rest.length} length ∧
        r.skipNested = r.past length ∧
        ∀ i ≤ length, ∃ opened,
          (r.rest.take i).countP opensBracket = (r.rest.take i).countP closesBracket + opened ∧
            (Guarded.turnsTaken Guarded.skipTurn i 0).run ⟨r, depth⟩ =
              some (some opened, ⟨r.past i, depth⟩) := by
  refine ⟨fun b d rest hr hrest => ?_, Guarded.guards_skipNested depth r,
    nestedLength 0 r.rest, isLeast_nestedLength 0 r.rest, rfl, fun i hi => ?_⟩
  · cases d with
    | phrase h inner last =>
      cases last
      rw [kinds, kinds, List.append_nil] at hr ⊢
      exact skipNested_of_derivation h inner hr hrest
  · obtain ⟨opened, hcount, hrun⟩ := Guarded.run_turnsTaken_skipTurn hi depth
    exact ⟨opened, (Nat.zero_add _).symm.trans hcount, hrun⟩

theorem isKey_name : isKey .name = true := rfl

/-- The derivation of an expression `a({b:[,c]})`. -/
def callOnObject : Derivation [Phrase.expression false] :=
  let entries := .phrase .hole (.token .comma .nil)
    (.single .entriesLast (.single (.element false) (.single (.value false) Document.operandOfName)))
  let list := .token .leftBracket (.phrase .entriesHole entries (.token .rightBracket .nil))
  let pair := .token .name (.token .colon
    (.single (.value false) (Document.operand .literal (.single .list list))))
  let object := .token .leftBrace
    (.phrase .propertiesLast (.single (.pair .name isKey_name false) pair) (.token .rightBrace .nil))
  let argument := .single (.value false) (Document.operand .object object)
  let call := .token .leftParen
    (.phrase (.argumentsLast false) argument (.token .rightParen (.single .suffixesEnd .nil)))
  let postfixed := .phrase (.atom .name Document.isAtom_name) (.token .name .nil) (.single .call call)
  .single (.value false) (.single (.binary false)
    (.phrase .unsigned (.single .postfixed postfixed) (.single .operandsEnd .nil)))

/-- A call with a colon and a hole in its argument, as an element of a list literal; and `(,];`, where a
    bracket is closed by one of another kind. -/
theorem skipNested_passes_one_call :
    let r : Reading :=
      ⟨1, callOnObject.kinds ++ [.rightBracket, .name], [⟨.array, 0, []⟩], [⟨.nestingTooDeep, 1⟩]⟩
    let s := ofKinds [.leftParen, .comma, .rightBracket, .semicolon]
    Ahead endsExpression [.rightBracket, .name] ∧
      r.skipNested = { r with position := 12, rest := [.rightBracket, .name] } ∧
      Guarded.skipNested.run ⟨s, 256⟩ = some ((), ⟨s.past 3, 256⟩) ∧
      IsLeast {i | EndsAt 0 s.rest i ∨ i = 4} 3 ∧
      (Guarded.turnsTaken Guarded.skipTurn 2 0).run ⟨s, 256⟩ = some (some 1, ⟨s.past 2, 256⟩) := by
  intro r s
  have hahead : Ahead endsExpression [.rightBracket, .name] := ahead_cons.mpr rfl
  obtain ⟨hexpression, -⟩ := skipNested_passes_one r 0
  obtain ⟨-, hrun, length, hleast, hskip, hcount⟩ := skipNested_passes_one s 256
  obtain rfl : length = 3 := by
    have hposition : (s.past length).position = 3 := hskip ▸ rfl
    exact (Nat.zero_add length).symm.trans hposition
  obtain ⟨opened, hopened, hturns⟩ := hcount 2 (by decide)
  obtain rfl : opened = 1 := by
    have hone : 1 = 0 + opened := hopened
    omega
  exact ⟨hahead, hexpression false callOnObject _ rfl hahead, hskip ▸ hrun, hleast, hturns⟩

end Reading

end CommaStyle.Grammar
