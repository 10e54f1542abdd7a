import CommaStyle.Proofs.Settings.Values

namespace CommaStyle

open Json

/-!
# Which texts are settings

Settings are written as a JSON object with options for members, or as an array with the values of the
options in their order. `Json.Sets` says so without regard to any reader:

* an object names no option twice and nothing but options, and their values are booleans;
* an array has at most as many values as there are options, and stands for the object that names them;
* an option that is not written keeps its usual value.

`Settings.ofText_accepts` is the main statement: the texts that hold such a value are the ones that are
read, and neither white space nor the order of the members matters.
-/

/-- The options with their names, in their order. -/
def Settings.options : List (Text × (Settings → Bool)) :=
  [("before".toList, spaceBefore), ("after".toList, spaceAfter),
    ("ignoreIfFirstTokenOfLine".toList, excuseLeading)]

/-- Whether members are what settings look like in an object. -/
structure Json.MembersSet (ms : List (Text × Json)) (s : Settings) : Prop where
  /-- No name is written twice. -/
  distinct : (ms.map Prod.fst).Nodup
  /-- Every member is an option with a boolean, the value of the option. -/
  given : ∀ m ∈ ms, ∃ o ∈ Settings.options, m = (o.1, .boolean (o.2 s))
  /-- An option that is not written has its usual value. -/
  usual : ∀ o ∈ Settings.options, o.1 ∉ ms.map Prod.fst → o.2 s = o.2 Settings.standard

/-- Whether a value is what some settings look like. -/
def Json.Sets : Json → Settings → Prop
  | .object ms, s => MembersSet ms s
  | .array vs, s =>
    vs.length ≤ Settings.options.length ∧ MembersSet ((Settings.options.map Prod.fst).zip vs) s
  | _, _ => False

/-! ### Filling a draft -/

/-- No two settings have the same name. -/
theorem Field.name_inj {f g : Field} (h : f.name.toList = g.name.toList) : f = g :=
  Option.some.inj ((ofName?_eq_some_iff.mpr rfl).symm.trans (ofName?_eq_some_iff.mpr h))

theorem Json.boolean?_eq_some_iff {v : Json} {b : Bool} : v.boolean? = some b ↔ v = .boolean b := by
  cases v <;> simp [boolean?]

namespace Draft

/-- A draft is known by its settings. -/
theorem ext_get {d e : Draft} (h : ∀ f, d.get f = e.get f) : d = e := by
  obtain ⟨before, after, leading⟩ := d
  obtain rfl : before = e.before := h .before
  obtain rfl : after = e.after := h .after
  obtain rfl : leading = e.leading := h .leading
  rfl

/-- A draft is filled by members with different names, and each of them gives a value to the setting
    that it names. -/
theorem fill?_eq_some_iff {d e : Draft} {ms : List (Text × Json)} :
    d.fill? ms = some e ↔ (ms.map Prod.fst).Nodup ∧
      (∀ m ∈ ms, ∃ f b, m = (f.name.toList, .boolean b) ∧ d.get f = none ∧ e.get f = some b) ∧
      ∀ f, f.name.toList ∉ ms.map Prod.fst → e.get f = d.get f := by
  induction ms generalizing d with
  | nil =>
    simp only [fill?, Option.some.injEq, List.map_nil, List.nodup_nil, List.not_mem_nil, false_imp_iff,
      implies_true, not_false_eq_true, true_imp_iff, true_and]
    exact ⟨fun h f => by rw [h], fun h => ext_get fun f => (h f).symm⟩
  | cons m ms ih =>
    obtain ⟨name, v⟩ := m
    simp only [fill?, Option.bind_eq_some_iff, free?_eq_some_iff, boolean?_eq_some_iff, ih]
    constructor
    · rintro ⟨f, ⟨rfl, hf⟩, b, rfl, hdistinct, hgiven, hothers⟩
      -- The setting is taken once its member is noted, so that no other member can name it.
      have hnew : f.name.toList ∉ ms.map Prod.fst := by
        intro hmem
        obtain ⟨m, hm, hname⟩ := List.mem_map.mp hmem
        obtain ⟨g, c, rfl, hg, -⟩ := hgiven m hm
        obtain rfl : g = f := Field.name_inj hname
        simp [get_set] at hg
      refine ⟨List.nodup_cons.mpr ⟨hnew, hdistinct⟩, List.forall_mem_cons.mpr ⟨?_, ?_⟩, ?_⟩
      · refine ⟨f, b, rfl, hf, ?_⟩
        rw [hothers f hnew, get_set, if_pos rfl]
      · intro m hm
        obtain ⟨g, c, rfl, hg, hc⟩ := hgiven m hm
        rw [get_set] at hg
        split at hg
        · cases hg
        · exact ⟨g, c, rfl, hg, hc⟩
      · intro g hg
        rw [List.map_cons, List.mem_cons, not_or] at hg
        have hne : g ≠ f := fun h => hg.1 (by rw [h])
        rw [hothers g hg.2, get_set, if_neg hne]
    · rintro ⟨hdistinct, hgiven, hothers⟩
      obtain ⟨hnew, hmore⟩ := List.nodup_cons.mp hdistinct
      obtain ⟨⟨f, b, heq, hf, hb⟩, htail⟩ := List.forall_mem_cons.mp hgiven
      obtain ⟨rfl, rfl⟩ := Prod.mk.inj heq
      refine ⟨f, ⟨rfl, hf⟩, b, rfl, hmore, ?_, ?_⟩
      · intro m hm
        obtain ⟨g, c, rfl, hg, hc⟩ := htail m hm
        have hne : g ≠ f := by
          rintro rfl
          exact hnew (List.mem_map.mpr ⟨_, hm, rfl⟩)
        exact ⟨g, c, rfl, by rw [get_set, if_neg hne, hg], hc⟩
      · intro g hg
        rw [get_set]
        split
        · next h => rw [h, hb]
        · next hne =>
          refine hothers g ?_
          rw [List.map_cons, List.mem_cons, not_or]
          exact ⟨fun h => hne (Field.name_inj h), hg⟩

/-- An array stands for an object with names for its elements. -/
theorem list?_eq_some_iff {d e : Draft} {fields : List Field} {vs : List Json}
    (hfields : fields.Nodup) (hfree : ∀ f ∈ fields, d.get f = none) :
    d.list? fields vs = some e ↔ vs.length ≤ fields.length ∧
      d.fill? ((fields.map fun f => f.name.toList).zip vs) = some e := by
  induction fields generalizing d vs with
  | nil => cases vs <;> simp [list?, fill?]
  | cons f fields ih =>
    cases vs with
    | nil => simp [list?, fill?]
    | cons v vs =>
      obtain ⟨hf, hfields⟩ := List.nodup_cons.mp hfields
      obtain ⟨hhead, htail⟩ := List.forall_mem_cons.mp hfree
      have hset : ∀ b, ∀ g ∈ fields, (d.set f b).get g = none := by
        intro b g hg
        have hne : g ≠ f := fun h => hf (h ▸ hg)
        rw [get_set, if_neg hne, htail g hg]
      have hname : d.free? f.name.toList = some f := free?_eq_some_iff.mpr ⟨rfl, hhead⟩
      simp only [list?, List.map_cons, List.zip_cons_cons, fill?, hname, Option.bind_some,
        Option.bind_eq_some_iff, List.length_cons, Nat.add_le_add_iff_right]
      constructor
      · rintro ⟨b, hb, hlist⟩
        obtain ⟨hlength, hfill⟩ := (ih hfields (hset b)).mp hlist
        exact ⟨hlength, b, hb, hfill⟩
      · rintro ⟨hlength, b, hb, hfill⟩
        exact ⟨b, hb, (ih hfields (hset b)).mpr ⟨hlength, hfill⟩⟩

end Draft

/-! ### Settings and drafts -/

/-- The value of a setting. -/
def Settings.get (s : Settings) : Field → Bool
  | .before => s.spaceBefore
  | .after => s.spaceAfter
  | .leading => s.excuseLeading

/-- The options are the settings under their names. -/
theorem Settings.options_eq :
    options = Field.all.map fun f => (f.name.toList, fun s : Settings => s.get f) := rfl

/-- An option is a setting under its name. -/
theorem Settings.mem_options {o : Text × (Settings → Bool)} :
    o ∈ options ↔ ∃ f : Field, o = (f.name.toList, fun s : Settings => s.get f) := by
  have hall : ∀ f, f ∈ Field.all := by intro f; cases f <;> decide
  rw [options_eq, List.mem_map]
  constructor
  · rintro ⟨f, -, rfl⟩
    exact ⟨f, rfl⟩
  · rintro ⟨f, rfl⟩
    exact ⟨f, hall f, rfl⟩

/-- A setting that a draft leaves out has its usual value. -/
theorem Draft.toSettings_eq_iff {d : Draft} {s : Settings} :
    d.toSettings = s ↔ ∀ f, (d.get f).getD (Settings.standard.get f) = s.get f := by
  constructor
  · rintro rfl f
    cases f <;> rfl
  · intro h
    obtain ⟨before, after, leading⟩ := s
    have hbefore := h .before
    have hafter := h .after
    have hleading := h .leading
    simp only [Draft.get, Settings.get] at hbefore hafter hleading
    simp only [toSettings, ← hbefore, ← hafter, ← hleading]

/-- **Objects of settings.** Members look like settings just if a draft can be filled with them and
    stands for these settings. -/
theorem Json.membersSet_iff {ms : List (Text × Json)} {s : Settings} :
    MembersSet ms s ↔ ∃ d, ({} : Draft).fill? ms = some d ∧ d.toSettings = s := by
  have hempty : ∀ f, ({} : Draft).get f = none := by intro f; cases f <;> rfl
  simp only [Draft.fill?_eq_some_iff, Draft.toSettings_eq_iff, hempty]
  constructor
  · rintro ⟨hdistinct, hgiven, husual⟩
    -- The draft of just those settings that are named.
    let value (f : Field) : Option Bool :=
      if f.name.toList ∈ ms.map Prod.fst then some (s.get f) else none
    let d : Draft := ⟨value .before, value .after, value .leading⟩
    have hget : ∀ f, d.get f = value f := by intro f; cases f <;> rfl
    refine ⟨d, ⟨hdistinct, ?_, ?_⟩, ?_⟩
    · intro m hm
      obtain ⟨o, ho, rfl⟩ := hgiven m hm
      obtain ⟨f, rfl⟩ := Settings.mem_options.mp ho
      refine ⟨f, s.get f, rfl, trivial, ?_⟩
      rw [hget]
      exact if_pos (List.mem_map_of_mem hm)
    · intro f hf
      rw [hget]
      exact if_neg hf
    · intro f
      rw [hget]
      by_cases hf : f.name.toList ∈ ms.map Prod.fst
      · simp [value, hf]
      · have hstandard := husual _ (Settings.mem_options.mpr ⟨f, rfl⟩) hf
        simp only [value, if_neg hf, Option.getD_none]
        exact hstandard.symm
  · rintro ⟨d, ⟨hdistinct, hgiven, hothers⟩, hs⟩
    refine ⟨hdistinct, ?_, ?_⟩
    · intro m hm
      obtain ⟨f, b, rfl, -, hb⟩ := hgiven m hm
      refine ⟨_, Settings.mem_options.mpr ⟨f, rfl⟩, ?_⟩
      simp [← hs f, hb]
    · intro o ho hnot
      obtain ⟨f, rfl⟩ := Settings.mem_options.mp ho
      simp [← hs f, hothers f hnot]

/-- The readers and the meaning agree on every value. -/
theorem Json.sets_iff {v : Json} {s : Settings} :
    v.Sets s ↔ ∃ d, v.draft? = some d ∧ d.toSettings = s := by
  cases v with
  | object ms => exact membersSet_iff
  | array vs =>
    have hfree : ∀ f ∈ Field.all, ({} : Draft).get f = none := by intro f _; cases f <;> rfl
    have hlist : ∀ d, ({} : Draft).list? Field.all vs = some d ↔ _ :=
      fun d => Draft.list?_eq_some_iff (by decide) hfree
    simp only [Sets, membersSet_iff, draft?, hlist, and_assoc, exists_and_left]
    rfl
  | null | boolean | number | string => simp [Sets, draft?]

/-! ### Texts -/

/-- The order of members does not matter. -/
theorem Json.MembersSet.perm {ms ms' : List (Text × Json)} {s : Settings} (h : MembersSet ms s)
    (hperm : ms.Perm ms') : MembersSet ms' s where
  distinct := (hperm.map Prod.fst).nodup_iff.mp h.distinct
  given := fun m hm => h.given m (hperm.mem_iff.mpr hm)
  usual := fun o ho hnot => h.usual o ho fun hmem => hnot ((hperm.map Prod.fst).mem_iff.mp hmem)

namespace Settings

/-- A text that is read as settings holds a JSON value. -/
theorem exists_writtenIn {t : Text} {s : Settings} (h : ofText t = .ok s) :
    ∃ v : Json, v.WrittenIn t := by
  obtain ⟨⟨d, j⟩, hread, h⟩ := Except.bind_eq_ok_iff.mp h
  obtain ⟨v, a, w, ha, hw, hrest⟩ := Input.exists_written hread
  obtain ⟨b, hb, hend⟩ := Input.exists_blank j
  refine ⟨v, a, w, b, ha, hw, hb, ?_⟩
  dsimp only at h
  split at h
  · next hempty =>
    rw [List.isEmpty_iff.mp hempty, List.append_nil] at hend
    rw [← hend]
    exact hrest
  · simp at h

/-- A text is read for what its value looks like. -/
theorem ofText_eq_ok_iff {t : Text} {v : Json} (hv : v.WrittenIn t) (s : Settings) :
    ofText t = .ok s ↔ v.Sets s := by
  obtain ⟨a, w, b, ha, hw, hb, rfl⟩ := hv
  have hyields := Input.yields_settings (i := Input.ofText (a ++ (w ++ b))) hw ha rfl
  rw [sets_iff, ofText]
  cases hdraft : v.draft? with
  | none =>
    rw [hdraft] at hyields
    exact iff_of_false (Except.bind_ne_ok hyields _ s) (by simp)
  | some d =>
    rw [hdraft] at hyields
    obtain ⟨j, hj, hrest⟩ := hyields
    have hend : j.skipBlanks.rest = [] :=
      Input.rest_skipBlanks_of_blank (r := []) (by rw [hrest, List.append_nil]) hb (by simp)
    rw [Except.bind_eq_of_eq_ok hj]
    simp [hend, pure, Except.pure]

/-- **Settings are accepted exactly when they are valid.** A text is read as settings if and only if it
    holds a value that looks like them. So a value that is no object or array of settings is refused
    however it is written, and the same settings are read from a text with the same members, whatever
    their order and the white space between them. -/
theorem ofText_accepts (t : Text) (s : Settings) :
    (ofText t = .ok s ↔ ∃ v : Json, v.WrittenIn t ∧ v.Sets s) ∧
      (∀ v : Json, v.WrittenIn t → (ofText t = .ok s ↔ v.Sets s)) ∧
      ∀ ms ms' t', (object ms).WrittenIn t → (object ms').WrittenIn t' → ms.Perm ms' →
        (ofText t = .ok s ↔ ofText t' = .ok s) := by
  refine ⟨⟨?_, ?_⟩, fun v hv => ofText_eq_ok_iff hv s, ?_⟩
  · intro h
    obtain ⟨v, hv⟩ := exists_writtenIn h
    exact ⟨v, hv, (ofText_eq_ok_iff hv s).mp h⟩
  · rintro ⟨v, hv, hs⟩
    exact (ofText_eq_ok_iff hv s).mpr hs
  · intro ms ms' t' hms hms' hperm
    rw [ofText_eq_ok_iff hms s, ofText_eq_ok_iff hms' s]
    show MembersSet ms s ↔ MembersSet ms' s
    exact ⟨fun h => h.perm hperm, fun h => h.perm hperm.symm⟩

/-- A name may be written with escape sequences, and it is the same name then: it is accepted once and
    refused the second time. -/
theorem ofText_accepts_escaped :
    ofText "\x7b\"\\u0061fter\" : false\x7d".toList = .ok { spaceAfter := false } ∧
      ∀ s, ofText "\x7b\"after\":true,\"\\u0061fter\" : false\x7d".toList ≠ .ok s := by
  have hblank : Blank [' '] := by simp [Blank]
  have hcode : WritesChar 'a' ['\\', 'u', '0', '0', '6', '1'] :=
    .code (.mk (k := 0) (l := 0) (m := 6) (n := 1) (.inl rfl) (.inl rfl) (.inl rfl) (.inl rfl))
  have hrest : WritesText ['f', 't', 'e', 'r'] ['f', 't', 'e', 'r'] := writesText_self (by decide)
  have hplain : WritesString "after".toList "\"after\"".toList :=
    ⟨_, writesText_self (t := "after".toList) (by decide), rfl⟩
  have hescaped : WritesString "after".toList "\"\\u0061fter\"".toList := ⟨_, .cons hcode hrest, rfl⟩
  have hmember := WritesMembers.one blank_nil hescaped hblank hblank (.boolean (b := false))
  have hmembers := WritesMembers.more blank_nil hplain blank_nil blank_nil (.boolean (b := true))
    blank_nil hmember
  constructor
  · have hwritten : (object [("after".toList, .boolean false)]).WrittenIn
        "\x7b\"\\u0061fter\" : false\x7d".toList :=
      ⟨[], _, [], blank_nil, .object hmember blank_nil, blank_nil, rfl⟩
    refine (ofText_accepts _ _).1.mpr ⟨_, hwritten, ?_⟩
    show MembersSet [("after".toList, .boolean false)] _
    refine ⟨by simp, List.forall_mem_singleton.mpr ⟨_, .tail _ (.head _), rfl⟩, ?_⟩
    intro o ho hnot
    simp only [options, List.mem_cons, List.not_mem_nil, or_false] at ho
    rcases ho with rfl | rfl | rfl
    · rfl
    · exact absurd (List.mem_singleton_self _) hnot
    · rfl
  · intro s h
    have hwritten : WrittenIn (.object [("after".toList, .boolean true), ("after".toList, .boolean false)])
        "\x7b\"after\":true,\"\\u0061fter\" : false\x7d".toList :=
      ⟨[], _, [], blank_nil, .object hmembers blank_nil, blank_nil, rfl⟩
    have hdistinct := (((ofText_accepts _ s).2.1 _ hwritten).mp h).distinct
    simp at hdistinct

end Settings

end CommaStyle
