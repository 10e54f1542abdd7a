import CommaStyle.Proofs.Settings.Strings

namespace CommaStyle

open Json

/-!
# Reading values, arrays and objects

The loops that read settings are compared with the grammar. What a value stands for is told by
`Json.draft?`, which looks at the value and not at its text.

* `Input.exists_written` — an input that is read starts with a written value;
* `Input.yields_settings` — a written value is read as the draft that it stands for, and refused if it
  stands for none.
-/

/-! ### Drafts -/

/-- The boolean that a value is. -/
def Json.boolean? : Json → Option Bool
  | .boolean b => some b
  | _ => none

/-- A name stands for a setting just if it is the name of the setting. -/
theorem Field.ofName?_eq_some_iff {name : Text} {f : Field} :
    Field.ofName? name = some f ↔ name = f.name.toList := by
  constructor
  · intro h
    rw [Field.ofName?] at h
    have hfound := List.find?_some h
    exact (eq_of_beq hfound).symm
  · rintro rfl
    cases f <;> rfl

namespace Draft

/-- Giving a value to a setting changes no other setting. -/
theorem get_set (d : Draft) (f g : Field) (b : Bool) :
    (d.set f b).get g = if g = f then some b else d.get g := by
  cases f <;> cases g <;> rfl

/-- The number of settings that have not been read. -/
def missing (d : Draft) : Nat := Field.all.countP fun f => (d.get f).isNone

/-- Giving a value to a setting that has not been read leaves one less to be read. -/
theorem missing_set {d : Draft} {f : Field} (h : d.get f = none) (b : Bool) :
    (d.set f b).missing + 1 = d.missing := by
  obtain ⟨before, after, leading⟩ := d
  cases f <;> obtain rfl := h
  · cases after <;> cases leading <;> rfl
  · cases before <;> cases leading <;> rfl
  · cases before <;> cases after <;> rfl

/-- The setting that a name stands for, if it has not been read. -/
def free? (d : Draft) (name : Text) : Option Field :=
  (Field.ofName? name).filter fun f => (d.get f).isNone

/-- A name is free if it is that of a setting which has not been read. -/
theorem free?_eq_some_iff {d : Draft} {name : Text} {f : Field} :
    d.free? name = some f ↔ name = f.name.toList ∧ d.get f = none := by
  rw [free?, Option.filter_eq_some_iff, Field.ofName?_eq_some_iff, Option.isNone_iff_eq_none]

/-- The draft with the members of an object, each of which has to be a boolean for a setting that has
    not been read. -/
def fill? (d : Draft) : List (Text × Json) → Option Draft
  | [] => some d
  | (name, v) :: ms => (d.free? name).bind fun f => v.boolean?.bind fun b => (d.set f b).fill? ms

/-- The draft with the elements of an array, each of which has to be a boolean for the next setting. -/
def list? (d : Draft) : List Field → List Json → Option Draft
  | _, [] => some d
  | [], _ :: _ => none
  | f :: fields, v :: vs => v.boolean?.bind fun b => (d.set f b).list? fields vs

end Draft

/-- The draft that a value stands for. -/
def Json.draft? : Json → Option Draft
  | .array vs => ({} : Draft).list? Field.all vs
  | .object ms => ({} : Draft).fill? ms
  | _ => none

namespace Input

/-! ### Results -/

/-- Whether a reader has a result and leaves a rest, or has failed where there is no result. -/
def Yields {α : Type} (x : Except SettingsError (α × Input)) (r : Text) : Option α → Prop
  | some a => ∃ j, x = .ok (a, j) ∧ j.rest = r
  | none => ∀ p, x ≠ .ok p

/-- One reader after another yields what their meanings yield one after the other. -/
theorem Yields.bind {α β : Type} {x : Except SettingsError (α × Input)} {o : Option α} {r r' : Text}
    {f : α × Input → Except SettingsError (β × Input)} {g : α → Option β} (h : Yields x r o)
    (hf : ∀ a j, j.rest = r → Yields (f (a, j)) r' (g a)) : Yields (x >>= f) r' (o.bind g) := by
  cases o with
  | none => exact Except.bind_ne_ok h f
  | some a =>
    obtain ⟨j, hj, hrest⟩ := h
    rw [Except.bind_eq_of_eq_ok hj]
    exact hf a j hrest

/-! ### Booleans -/

/-- What is refused has no result. -/
@[simp] theorem refuse_ne_ok {α : Type} (i : Input) (wanted : Wanted) (a : α) :
    i.refuse wanted ≠ .ok a := by
  intro h
  obtain ⟨⟨found, j⟩, -, hfail⟩ := Except.bind_eq_ok_iff.mp h
  exact fail_ne_ok j _ a hfail

/-- No value starts with white space or a closing bracket. -/
theorem Writes.head_ne {v : Json} {w : Text} (h : Writes v w) : ∃ c u, w = c :: u ∧
    v.startsWith c ∧ isSeparator c = false ∧ c ≠ ']' := by
  obtain ⟨c, u, rfl, hc⟩ := h.head
  refine ⟨c, u, rfl, hc, ?_⟩
  cases v with
  | null | string | array | object =>
    obtain rfl := hc
    decide
  | boolean b =>
    obtain rfl := hc
    cases b <;> decide
  | number =>
    rcases hc with rfl | hdigit
    · decide
    · have hcode : 48 ≤ c.toNat ∧ c.toNat ≤ 57 := Char.isDigit_iff_toNat.mp hdigit
      constructor
      · by_contra hne
        rcases isSeparator_iff.mp (Bool.eq_true_of_not_eq_false hne) with rfl | rfl | rfl | rfl <;>
          simp at hcode
      · rintro rfl
        simp at hcode

/-- A boolean that is read is one of its two words, behind white space. -/
theorem boolean_of_eq_ok {i j : Input} {b : Bool} (h : i.boolean = .ok (b, j)) :
    ∃ a, Blank a ∧ i.rest = a ++ (Json.word b ++ j.rest) := by
  obtain ⟨a, ha, hrest⟩ := exists_blank i
  refine ⟨a, ha, ?_⟩
  rw [hrest]
  congr 1
  simp only [boolean] at h
  split at h
  · simp at h
  · next hpeek =>
    obtain ⟨k, hk, h⟩ := Except.bind_eq_ok_iff.mp h
    obtain ⟨rfl, rfl⟩ := Prod.mk.inj (Except.ok.inj h)
    rw [rest_of_peek? hpeek, word_of_eq_ok hk]
    rfl
  · next hpeek =>
    obtain ⟨k, hk, h⟩ := Except.bind_eq_ok_iff.mp h
    obtain ⟨rfl, rfl⟩ := Prod.mk.inj (Except.ok.inj h)
    rw [rest_of_peek? hpeek, word_of_eq_ok hk]
    rfl
  · simp at h

/-- A written value is read as a boolean exactly if it is one: the others start with other letters. -/
theorem yields_boolean {i : Input} {v : Json} {a w r : Text} (hv : Writes v w) (ha : Blank a)
    (h : i.rest = a ++ (w ++ r)) : Yields i.boolean r v.boolean? := by
  obtain ⟨c, u, hw, hc, hblank, -⟩ := Writes.head_ne hv
  have hrest : i.skipBlanks.rest = w ++ r := by
    rw [hw] at h ⊢
    exact rest_skipBlanks_cons h ha hblank
  have hpeek : i.skipBlanks.peek? = some c := peek?_of_rest (by rw [hrest, hw]; rfl)
  have hother : c ≠ 't' → c ≠ 'f' → ∀ p, i.boolean ≠ .ok p := by
    intro ht hf p
    simp only [boolean, hpeek]
    exact refuse_ne_ok _ _ p
  cases v with
  | boolean b =>
    cases hv
    cases b <;>
    · obtain ⟨j, hj, hj'⟩ := exists_word (rest_step hrest)
      refine ⟨j, ?_, hj'⟩
      simp only [boolean, peek?_of_rest hrest, Except.bind_eq_of_eq_ok hj]
      rfl
  | null | string | array | object =>
    obtain rfl := hc
    exact hother (by decide) (by decide)
  | number =>
    refine hother ?_ ?_ <;>
    · rintro rfl
      rcases hc with hc | hc <;> exact absurd hc (by decide)

/-! ### Objects -/

/-- What stands in front of a piece of a list: nothing before the first one, and a comma before each of
    the others. -/
def Lead : (first : Bool) → Text → Prop
  | true, w => w = []
  | false, w => ∃ b, Blank b ∧ w = b ++ [',']

theorem lead_first : Lead true [] := rfl

/-- If no name follows, the object ends. -/
theorem nextName_of_eq_none {i : Input} {first : Bool} (h : i.nextName first = .ok none) :
    ∃ a r, Blank a ∧ i.rest = a ++ '\x7d' :: r := by
  obtain ⟨a, ha, hrest⟩ := exists_blank i
  simp only [nextName] at h
  split at h
  · simp at h
  · next hpeek => exact ⟨a, _, ha, by rw [hrest, rest_of_peek? hpeek]⟩
  · split at h
    · split at h <;> simp at h
    · split at h
      · split at h <;> simp at h
      · simp at h

/-- If a name follows, its quote does, behind a comma unless it is the first. -/
theorem nextName_of_eq_some {i j : Input} {first : Bool} (h : i.nextName first = .ok (some j)) :
    ∃ front a, Lead first front ∧ Blank a ∧ i.rest = front ++ (a ++ '"' :: j.rest) := by
  obtain ⟨a, ha, hrest⟩ := exists_blank i
  simp only [nextName] at h
  split at h
  · simp at h
  · simp at h
  next c _ hpeek =>
  split at h
  · next hfirst =>
    split at h
    · next hquote =>
      obtain rfl := Option.some.inj (Except.ok.inj h)
      refine ⟨[], a, hfirst ▸ lead_first, ha, ?_⟩
      rw [hrest, rest_of_peek? hpeek, hquote]
      rfl
    · simp at h
  next hfirst =>
  split at h
  · next hcomma =>
    obtain ⟨b, hb, hrest'⟩ := exists_blank i.skipBlanks.step
    split at h
    · simp at h
    · next hquote =>
      obtain rfl := Option.some.inj (Except.ok.inj h)
      refine ⟨a ++ [','], b, ?_, hb, ?_⟩
      · rw [Bool.eq_false_of_not_eq_true hfirst]
        exact ⟨a, ha, rfl⟩
      · rw [hrest, rest_of_peek? hpeek, hcomma, hrest', rest_of_peek? hquote]
        simp
    · simp at h
    · simp at h
  · simp at h

/-- At the end of an object, no name follows. -/
theorem nextName_end {i : Input} {a r : Text} (first : Bool) (ha : Blank a)
    (h : i.rest = a ++ '\x7d' :: r) : i.nextName first = .ok none := by
  have hrest := rest_skipBlanks_cons h ha (by decide)
  simp only [nextName, peek?_of_rest hrest]

/-- A quote behind a comma, or behind the opening brace, starts a name. -/
theorem exists_nextName {i : Input} {first : Bool} {front a r : Text} (hfront : Lead first front)
    (ha : Blank a) (h : i.rest = front ++ (a ++ '"' :: r)) :
    ∃ j, i.nextName first = .ok (some j) ∧ j.rest = r := by
  cases first with
  | true =>
    obtain rfl := hfront
    have hrest := rest_skipBlanks_cons h ha (by decide)
    refine ⟨i.skipBlanks.step, ?_, rest_step hrest⟩
    simp [nextName, peek?_of_rest hrest]
  | false =>
    obtain ⟨b, hb, rfl⟩ := hfront
    rw [List.append_assoc] at h
    have hcomma := rest_skipBlanks_cons h hb (by decide)
    have hquote := rest_skipBlanks_cons (rest_step hcomma) ha (by decide)
    refine ⟨i.skipBlanks.step.skipBlanks.step, ?_, rest_step hquote⟩
    simp [nextName, peek?_of_rest hcomma, peek?_of_rest hquote]

/-- A colon that is read stands in the input, behind white space. -/
theorem colon_of_eq_ok {i j : Input} (h : i.colon = .ok j) :
    ∃ a, Blank a ∧ i.rest = a ++ ':' :: j.rest := by
  obtain ⟨a, ha, hrest⟩ := exists_blank i
  simp only [colon] at h
  split at h
  · simp at h
  · next hpeek =>
    obtain rfl := Except.ok.inj h
    exact ⟨a, ha, by rw [hrest, rest_of_peek? hpeek]⟩
  · simp at h

/-- A colon behind white space is read. -/
theorem exists_colon {i : Input} {a r : Text} (ha : Blank a) (h : i.rest = a ++ ':' :: r) :
    ∃ j, i.colon = .ok j ∧ j.rest = r := by
  have hrest := rest_skipBlanks_cons h ha (by decide)
  refine ⟨i.skipBlanks.step, ?_, rest_step hrest⟩
  simp only [colon, peek?_of_rest hrest]

/-- A setting is read under a name that is free. -/
theorem field_eq_ok_iff {i : Input} {d : Draft} {name : Text} {f : Field} :
    i.field d name = .ok f ↔ d.free? name = some f := by
  rw [field, Draft.free?]
  cases Field.ofName? name with
  | none => simp
  | some g => cases hg : d.get g <;> simp [Option.filter, hg]

/-- Members are read up to the end of the object. The bound is not used up, as each of them takes one of
    the settings that are missing. -/
theorem members_of_eq_ok {bound : Nat} {first : Bool} {d e : Draft} {i j : Input}
    (hbound : d.missing < bound) (h : members bound first d i = .ok (e, j)) :
    ∃ a r, Blank a ∧ j.rest = a ++ '\x7d' :: r ∧ (i.rest = j.rest ∨
      ∃ front ms w, Lead first front ∧ WritesMembers ms w ∧ i.rest = front ++ (w ++ j.rest)) := by
  induction bound generalizing first d i with
  | zero => omega
  | succ bound ih =>
    rw [members] at h
    obtain ⟨next, hnext, h⟩ := Except.bind_eq_ok_iff.mp h
    cases next with
    | none =>
      obtain ⟨rfl, rfl⟩ := Prod.mk.inj (Except.ok.inj h)
      obtain ⟨a, r, ha, hrest⟩ := nextName_of_eq_none hnext
      exact ⟨a, r, ha, hrest, .inl rfl⟩
    | some k =>
      obtain ⟨⟨name, l⟩, hname, h⟩ := Except.bind_eq_ok_iff.mp h
      obtain ⟨f, hf, h⟩ := Except.bind_eq_ok_iff.mp h
      obtain ⟨m, hm, h⟩ := Except.bind_eq_ok_iff.mp h
      obtain ⟨⟨value, n⟩, hvalue, h⟩ := Except.bind_eq_ok_iff.mp h
      obtain ⟨front, a, hfront, ha, hrest⟩ := nextName_of_eq_some hnext
      obtain ⟨u, hu, hrest'⟩ := string_of_eq_ok hname
      obtain ⟨b, hb, hcolon⟩ := colon_of_eq_ok hm
      obtain ⟨c, hc, hword⟩ := boolean_of_eq_ok hvalue
      have hstring : WritesString name ('"' :: (u ++ ['"'])) := ⟨u, hu, rfl⟩
      -- One setting fewer is missing, as there is one turn fewer.
      have hmissing := Draft.missing_set (Draft.free?_eq_some_iff.mp (field_eq_ok_iff.mp hf)).2 value
      obtain ⟨a', r, ha', hend, hmore⟩ := ih (by omega) h
      refine ⟨a', r, ha', hend, .inr ⟨front, ?_⟩⟩
      rcases hmore with hmore | ⟨front', ms, w, ⟨d', hd', rfl⟩, hms, hmore⟩
      · refine ⟨_, _, hfront, .one (v := .boolean value) ha hstring hb hc .boolean, ?_⟩
        rw [hrest, hrest', hcolon, hword, hmore]
        simp
      · refine ⟨_, _, hfront, .more (v := .boolean value) ha hstring hb hc .boolean hd' hms, ?_⟩
        rw [hrest, hrest', hcolon, hword, hmore]
        simp

/-- At the end of an object, the draft is complete. -/
theorem members_end {bound : Nat} {first : Bool} {d : Draft} {i : Input} {a r : Text}
    (hbound : d.missing < bound) (ha : Blank a) (h : i.rest = a ++ '\x7d' :: r) :
    members bound first d i = .ok (d, i) := by
  cases bound with
  | zero => omega
  | succ bound =>
    rw [members, nextName_end first ha h]
    rfl

/-- One written member is noted in the draft, or else refused. -/
theorem yields_member {bound : Nat} {first : Bool} {d : Draft} {i : Input} {k : Text} {v : Json}
    {ms : List (Text × Json)} {front a name b c w r r' : Text} (hfront : Lead first front)
    (ha : Blank a) (hk : WritesString k name) (hb : Blank b) (hc : Blank c) (hv : Writes v w)
    (h : i.rest = front ++ (a ++ (name ++ (b ++ ':' :: (c ++ (w ++ r))))))
    (hmore : ∀ f x j, d.free? k = some f → j.rest = r →
      Yields (members bound false (d.set f x) j) r' ((d.set f x).fill? ms)) :
    Yields (members (bound + 1) first d i) r' (d.fill? ((k, v) :: ms)) := by
  obtain ⟨u, hu, rfl⟩ := hk
  obtain ⟨j, hj, hrest⟩ := exists_nextName (r := u ++ '"' :: (b ++ ':' :: (c ++ (w ++ r)))) hfront ha
    (by rw [h]; simp)
  obtain ⟨l, hl, hrest'⟩ := exists_string hu hrest
  obtain ⟨m, hm, hrest''⟩ := exists_colon hb hrest'
  rw [members, Except.bind_eq_of_eq_ok hj]
  dsimp only
  rw [Except.bind_eq_of_eq_ok hl]
  dsimp only
  cases hfree : d.free? k with
  | none =>
    have hfield : ∀ f, l.field d k ≠ .ok f := by
      intro f hf
      rw [field_eq_ok_iff, hfree] at hf
      cases hf
    rw [Draft.fill?, hfree]
    exact Except.bind_ne_ok hfield _
  | some f =>
    rw [Except.bind_eq_of_eq_ok (field_eq_ok_iff.mpr hfree), Except.bind_eq_of_eq_ok hm, Draft.fill?, hfree]
    exact (yields_boolean hv hc hrest'').bind fun x n hn => hmore f x n hfree hn

/-- Written members are noted one after the other. -/
theorem yields_members {ms : List (Text × Json)} {w : Text} (hms : WritesMembers ms w) {bound : Nat}
    {first : Bool} {d : Draft} {i : Input} {front a r : Text} (hbound : d.missing < bound)
    (hfront : Lead first front) (ha : Blank a) (h : i.rest = front ++ (w ++ (a ++ '\x7d' :: r))) :
    Yields (members bound first d i) (a ++ '\x7d' :: r) (d.fill? ms) := by
  induction bound generalizing ms w first d i front with
  | zero => omega
  | succ bound ih =>
    have hfewer : ∀ {f k} (x : Bool), d.free? k = some f → (d.set f x).missing < bound := by
      intro f k x hfree
      have hmissing := Draft.missing_set (Draft.free?_eq_some_iff.mp hfree).2 x
      omega
    cases hms with
    | @one k v name w b c e hb hk hc he hv =>
      refine yields_member hfront hb hk hc he hv (r := a ++ '\x7d' :: r) (by rw [h]; simp) ?_
      intro f x j hfree hj
      exact ⟨j, members_end (hfewer x hfree) ha hj, hj⟩
    | @more k v ms name w u b c e g hb hk hc he hv hg hms =>
      refine yields_member hfront hb hk hc he hv (r := g ++ [','] ++ (u ++ (a ++ '\x7d' :: r)))
        (by rw [h]; simp) ?_
      intro f x j hfree hj
      exact ih hms (hfewer x hfree) ⟨g, hg, rfl⟩ hj

/-- The closing brace is passed over with the white space in front of it. -/
theorem rest_passEnd {i : Input} {a r : Text} (ha : Blank a) (h : i.rest = a ++ '\x7d' :: r) :
    i.passEnd.rest = r := by
  have hrest := rest_skipBlanks_cons h ha (by decide)
  simp [passEnd, peek?_of_rest hrest, rest_step hrest]

/-- The bound on the members of an object suffices. -/
theorem missing_empty : ({} : Draft).missing < Field.all.length + 1 := by decide

/-- An object that is read is written in the input. -/
theorem object_of_eq_ok {i j : Input} {d : Draft} (h : i.object = .ok (d, j)) :
    ∃ ms w, Writes (.object ms) ('\x7b' :: w) ∧ i.rest = w ++ j.rest := by
  obtain ⟨⟨e, k⟩, hk, h⟩ := Except.bind_eq_ok_iff.mp h
  obtain ⟨rfl, rfl⟩ := Prod.mk.inj (Except.ok.inj h)
  obtain ⟨a, r, ha, hend, hrest⟩ := members_of_eq_ok missing_empty hk
  rw [rest_passEnd ha hend]
  rcases hrest with hrest | ⟨front, ms, w, rfl, hms, hrest⟩
  · exact ⟨[], _, .emptyObject ha, by rw [hrest, hend]; simp⟩
  · exact ⟨ms, _, .object hms ha, by rw [hrest, hend]; simp⟩

/-- **Objects.** A written object yields the draft that its members fill. -/
theorem yields_object {i : Input} {ms : List (Text × Json)} {w r : Text}
    (hw : Writes (.object ms) ('\x7b' :: w)) (h : i.rest = w ++ r) :
    Yields i.object r (({} : Draft).fill? ms) := by
  have hobject : ∀ {a}, Blank a →
      Yields (members (Field.all.length + 1) true {} i) (a ++ '\x7d' :: r) (({} : Draft).fill? ms) →
        Yields i.object r (({} : Draft).fill? ms) := by
    intro a ha hmembers
    rw [← Option.bind_fun_some (({} : Draft).fill? ms)]
    exact hmembers.bind fun d j hj => ⟨_, rfl, rest_passEnd ha hj⟩
  cases hw with
  | emptyObject ha =>
    rw [List.append_assoc] at h
    exact hobject ha ⟨i, members_end missing_empty ha h, h⟩
  | object hms ha =>
    refine hobject ha (yields_members hms missing_empty lead_first ha ?_)
    rw [h]
    simp

/-! ### Arrays -/

/-- Reads values for some settings up to the end of an array, with the closing bracket. -/
def closedElements (fields : List Field) (first : Bool) (d : Draft) (i : Input) :
    Except SettingsError (Draft × Input) := do
  let (d, i) ← elements fields first d i
  return (d, ← i.closeArray)

/-- A closing bracket that is read stands in the input, behind white space. -/
theorem closeArray_of_eq_ok {i j : Input} (h : i.closeArray = .ok j) :
    ∃ a, Blank a ∧ i.rest = a ++ ']' :: j.rest := by
  obtain ⟨a, ha, hrest⟩ := exists_blank i
  simp only [closeArray] at h
  split at h
  · simp at h
  · next hpeek =>
    obtain rfl := Except.ok.inj h
    exact ⟨a, ha, by rw [hrest, rest_of_peek? hpeek]⟩
  · split at h <;> simp at h
  · simp at h

/-- A closing bracket behind white space is read. -/
theorem exists_closeArray {i : Input} {a r : Text} (ha : Blank a) (h : i.rest = a ++ ']' :: r) :
    ∃ j, i.closeArray = .ok j ∧ j.rest = r := by
  have hrest := rest_skipBlanks_cons h ha (by decide)
  refine ⟨i.skipBlanks.step, ?_, rest_step hrest⟩
  simp only [closeArray, peek?_of_rest hrest]

/-- What one turn of the loop over an array can do: find the end, or read a boolean. -/
theorem elements_of_eq_ok {f : Field} {fields : List Field} {first : Bool} {d e : Draft} {i j : Input}
    (h : elements (f :: fields) first d i = .ok (e, j)) :
    (∃ a, Blank a ∧ i.rest = a ++ j.rest) ∨
      ∃ front a b k, Lead first front ∧ Blank a ∧ i.rest = front ++ (a ++ (Json.word b ++ k.rest)) ∧
        elements fields false (d.set f b) k = .ok (e, j) := by
  obtain ⟨a, ha, hrest⟩ := exists_blank i
  simp only [elements] at h
  split at h
  · simp at h
  · obtain ⟨rfl, rfl⟩ := Prod.mk.inj (Except.ok.inj h)
    exact .inl ⟨a, ha, hrest⟩
  next c _ hpeek =>
  split at h
  · next hfirst =>
    obtain ⟨⟨b, k⟩, hb, h⟩ := Except.bind_eq_ok_iff.mp h
    obtain ⟨a', ha', hword⟩ := boolean_of_eq_ok hb
    refine .inr ⟨[], a ++ a', b, k, hfirst ▸ lead_first, ha.append ha', ?_, h⟩
    rw [hrest, hword]
    simp
  next hfirst =>
  split at h
  · next hcomma =>
    obtain ⟨a', ha', hrest'⟩ := exists_blank i.skipBlanks.step
    split at h
    · simp at h
    · simp at h
    · obtain ⟨⟨b, k⟩, hb, h⟩ := Except.bind_eq_ok_iff.mp h
      obtain ⟨a'', ha'', hword⟩ := boolean_of_eq_ok hb
      refine .inr ⟨a ++ [','], a' ++ a'', b, k, ?_, ha'.append ha'', ?_, h⟩
      · rw [Bool.eq_false_of_not_eq_true hfirst]
        exact ⟨a, ha, rfl⟩
      · rw [hrest, rest_of_peek? hpeek, hcomma, hrest', hword]
        simp
  · simp at h

/-- The elements that were read are written in the input, up to the closing bracket. -/
theorem elements_written {fields : List Field} {first : Bool} {d e : Draft} {i j : Input} {b r : Text}
    (hb : Blank b) (hend : j.rest = b ++ ']' :: r) (h : elements fields first d i = .ok (e, j)) :
    ∃ a, Blank a ∧ (i.rest = a ++ ']' :: r ∨ ∃ front vs w, Lead first front ∧ WritesElements vs w ∧
      i.rest = front ++ (w ++ (a ++ ']' :: r))) := by
  induction fields generalizing first d i with
  | nil =>
    obtain ⟨rfl, rfl⟩ := Prod.mk.inj (Except.ok.inj h)
    exact ⟨b, hb, .inl hend⟩
  | cons f fields ih =>
    rcases elements_of_eq_ok h with ⟨a, ha, hrest⟩ | ⟨front, a, x, n, hfront, ha, hrest, hn⟩
    · refine ⟨a ++ b, ha.append hb, .inl ?_⟩
      rw [hrest, hend]
      simp
    · obtain ⟨a', ha', hmore⟩ := ih hn
      refine ⟨a', ha', .inr ⟨front, ?_⟩⟩
      rcases hmore with hmore | ⟨front', vs, w, ⟨b', hb', rfl⟩, hvs, hmore⟩
      · refine ⟨_, _, hfront, .one (v := .boolean x) ha .boolean, ?_⟩
        rw [hrest, hmore]
        simp
      · refine ⟨_, _, hfront, .more (v := .boolean x) ha .boolean hb' hvs, ?_⟩
        rw [hrest, hmore]
        simp

/-- At the closing bracket, there are no more elements. -/
theorem exists_closedElements_end {fields : List Field} {first : Bool} {d : Draft} {i : Input}
    {a r : Text} (ha : Blank a) (h : i.rest = a ++ ']' :: r) :
    ∃ j, closedElements fields first d i = .ok (d, j) ∧ j.rest = r := by
  cases fields with
  | nil =>
    obtain ⟨j, hj, hrest⟩ := exists_closeArray ha h
    refine ⟨j, ?_, hrest⟩
    rw [closedElements, elements, Except.bind_eq_of_eq_ok rfl]
    dsimp only
    rw [Except.bind_eq_of_eq_ok hj]
    rfl
  | cons f fields =>
    have hskip := rest_skipBlanks_cons h ha (by decide)
    obtain ⟨j, hj, hrest⟩ := exists_closeArray blank_nil hskip
    refine ⟨j, ?_, hrest⟩
    have helements : elements (f :: fields) first d i = .ok (d, i.skipBlanks) := by
      simp only [elements, peek?_of_rest hskip]
      rfl
    rw [closedElements, Except.bind_eq_of_eq_ok helements]
    dsimp only
    rw [Except.bind_eq_of_eq_ok hj]
    rfl

/-- An array with too many elements has no end where it has to have one. -/
theorem closeArray_ne_ok {first : Bool} {i : Input} {v : Json} {front a w r : Text}
    (hfront : Lead first front) (ha : Blank a) (hv : Writes v w) (h : i.rest = front ++ (a ++ (w ++ r)))
    (j : Input) : i.closeArray ≠ .ok j := by
  obtain ⟨c, u, rfl, -, hblank, hbracket⟩ := Writes.head_ne hv
  have hskip : ∃ d t, i.skipBlanks.rest = d :: t ∧ d ≠ ']' := by
    cases first with
    | true =>
      obtain rfl := hfront
      exact ⟨c, _, rest_skipBlanks_cons h ha hblank, hbracket⟩
    | false =>
      obtain ⟨b, hb, rfl⟩ := hfront
      rw [List.append_assoc] at h
      exact ⟨',', _, rest_skipBlanks_cons h hb (by decide), by decide⟩
  obtain ⟨d, t, hrest, hd⟩ := hskip
  simp only [closeArray, peek?_of_rest hrest]
  split
  · simp
  · next heq => exact absurd (Option.some.inj heq) hd
  · split <;> simp
  · simp

/-- One written element is noted in the draft, or else refused. -/
theorem yields_element {f : Field} {fields : List Field} {first : Bool} {d : Draft} {i : Input}
    {v : Json} {vs : List Json} {front a w r r' : Text} (hfront : Lead first front) (ha : Blank a)
    (hv : Writes v w) (h : i.rest = front ++ (a ++ (w ++ r)))
    (hmore : ∀ x j, j.rest = r →
      Yields (closedElements fields false (d.set f x) j) r' ((d.set f x).list? fields vs)) :
    Yields (closedElements (f :: fields) first d i) r' (d.list? (f :: fields) (v :: vs)) := by
  obtain ⟨c, u, hw, -, hblank, hbracket⟩ := Writes.head_ne hv
  -- Both ways to get to an element end in front of a boolean.
  have hstep : ∃ (j : Input) (b : Text), Blank b ∧ j.rest = b ++ (w ++ r) ∧
      elements (f :: fields) first d i =
        j.boolean >>= fun p => elements fields false (d.set f p.1) p.2 := by
    cases first with
    | true =>
      obtain rfl := hfront
      have hskip : i.skipBlanks.rest = c :: (u ++ r) :=
        rest_skipBlanks_cons (by rw [h, hw]; rfl) ha hblank
      refine ⟨i.skipBlanks, [], blank_nil, by rw [hskip, hw]; rfl, ?_⟩
      simp only [elements, peek?_of_rest hskip]
      rfl
    | false =>
      obtain ⟨b, hb, rfl⟩ := hfront
      rw [List.append_assoc] at h
      have hskip := rest_skipBlanks_cons h hb (by decide)
      have hskip' : i.skipBlanks.step.skipBlanks.rest = c :: (u ++ r) :=
        rest_skipBlanks_cons (by rw [rest_step hskip, hw]; rfl) ha hblank
      refine ⟨i.skipBlanks.step.skipBlanks, [], blank_nil, by rw [hskip', hw]; rfl, ?_⟩
      simp only [elements, peek?_of_rest hskip, peek?_of_rest hskip']
      rfl
  obtain ⟨j, b, hb, hrest, hstep⟩ := hstep
  rw [closedElements, hstep, bind_assoc]
  exact (yields_boolean hv hb hrest).bind hmore

/-- Written elements are noted one after the other, for as long as there are settings for them. -/
theorem yields_elements {vs : List Json} {w : Text} (hvs : WritesElements vs w) {fields : List Field}
    {first : Bool} {d : Draft} {i : Input} {front a r : Text} (hfront : Lead first front)
    (ha : Blank a) (h : i.rest = front ++ (w ++ (a ++ ']' :: r))) :
    Yields (closedElements fields first d i) r (d.list? fields vs) := by
  induction fields generalizing vs w first d i front with
  | nil =>
    cases hvs with
    -- No setting is left, so that the array would have to end here.
    | one hb hv | more hb hv _ _ =>
      simp only [List.append_assoc] at h
      exact Except.bind_ne_ok (closeArray_ne_ok hfront hb hv h) _
  | cons f fields ih =>
    cases hvs with
    | one hb hv =>
      rw [List.append_assoc] at h
      refine yields_element hfront hb hv h ?_
      intro x j hj
      rw [Draft.list?]
      exact exists_closedElements_end ha hj
    | @more v vs w u b c hb hv hc hvs =>
      refine yields_element hfront hb hv (r := c ++ [','] ++ (u ++ (a ++ ']' :: r)))
        (by rw [h]; simp) ?_
      intro x j hj
      exact ih hvs ⟨c, hc, rfl⟩ hj

/-- An array that is read is written in the input. -/
theorem array_of_eq_ok {i j : Input} {d : Draft} (h : i.array = .ok (d, j)) :
    ∃ vs w, Writes (.array vs) ('[' :: w) ∧ i.rest = w ++ j.rest := by
  obtain ⟨⟨e, k⟩, hk, h⟩ := Except.bind_eq_ok_iff.mp h
  obtain ⟨l, hl, h⟩ := Except.bind_eq_ok_iff.mp h
  obtain ⟨rfl, rfl⟩ := Prod.mk.inj (Except.ok.inj h)
  obtain ⟨b, hb, hend⟩ := closeArray_of_eq_ok hl
  obtain ⟨a, ha, hrest | ⟨front, vs, w, rfl, hvs, hrest⟩⟩ := elements_written hb hend hk
  · exact ⟨[], _, .emptyArray ha, by rw [hrest]; simp⟩
  · exact ⟨vs, _, .array hvs ha, by rw [hrest]; simp⟩

/-- **Arrays.** A written array yields the draft that its elements list. -/
theorem yields_array {i : Input} {vs : List Json} {w r : Text} (hw : Writes (.array vs) ('[' :: w))
    (h : i.rest = w ++ r) : Yields i.array r (({} : Draft).list? Field.all vs) := by
  show Yields (closedElements Field.all true {} i) r _
  cases hw with
  | emptyArray ha =>
    rw [List.append_assoc] at h
    rw [Draft.list?]
    exact exists_closedElements_end ha h
  | array hvs ha =>
    refine yields_elements hvs lead_first ha ?_
    rw [h]
    simp

/-! ### Settings -/

/-- **What is read is written.** An input that is read starts with a written value. -/
theorem exists_written {i j : Input} {d : Draft} (h : i.settings = .ok (d, j)) :
    ∃ v a w, Blank a ∧ Writes v w ∧ i.rest = a ++ (w ++ j.rest) := by
  obtain ⟨a, ha, hrest⟩ := exists_blank i
  simp only [settings] at h
  split at h
  · simp at h
  · next hpeek =>
    obtain ⟨vs, w, hw, hrest'⟩ := array_of_eq_ok h
    exact ⟨_, a, _, ha, hw, by rw [hrest, rest_of_peek? hpeek, hrest']; rfl⟩
  · next hpeek =>
    obtain ⟨ms, w, hw, hrest'⟩ := object_of_eq_ok h
    exact ⟨_, a, _, ha, hw, by rw [hrest, rest_of_peek? hpeek, hrest']; rfl⟩
  · simp at h

/-- **What is written is read.** A written value is read as the draft that it stands for, and refused
    if it stands for none. -/
theorem yields_settings {i : Input} {v : Json} {a w r : Text} (hv : Writes v w) (ha : Blank a)
    (h : i.rest = a ++ (w ++ r)) : Yields i.settings r v.draft? := by
  obtain ⟨c, u, rfl, hc, hblank, -⟩ := Writes.head_ne hv
  have hskip : i.skipBlanks.rest = c :: (u ++ r) := rest_skipBlanks_cons h ha hblank
  have hother : c ≠ '[' → c ≠ '\x7b' → ∀ p, i.settings ≠ .ok p := by
    intro hbracket hbrace p
    simp only [settings, peek?_of_rest hskip]
    exact refuse_ne_ok _ _ p
  cases v with
  | array vs =>
    obtain rfl := hc
    simp only [settings, peek?_of_rest hskip]
    exact yields_array hv (rest_step hskip)
  | object ms =>
    obtain rfl := hc
    simp only [settings, peek?_of_rest hskip]
    exact yields_object hv (rest_step hskip)
  | null | string =>
    obtain rfl := hc
    exact hother (by decide) (by decide)
  | boolean b =>
    obtain rfl := hc
    cases b <;> exact hother (by decide) (by decide)
  | number =>
    refine hother ?_ ?_ <;>
    · rintro rfl
      rcases hc with hc | hc <;> exact absurd hc (by decide)

end Input

end CommaStyle
