import DivisionScript.Proofs.Json.Reading
import DivisionScript.Settings.Reading

/-!
# Settings — Reading, proved

What settings are read from a JSON object. Each field of the object is the value of one field of the
settings; the names are different ones, in any order, and where a name is missing the default stays.
The fields that settings are written with give them back.
-/

namespace DivisionScript.Settings

open Json (Blanks Ends Quotes Spells SpellsField SpellsFields TextOf)
open Json.Reader

/-! ## Fields as JSON -/

namespace Field

/-- The value of a field, as JSON. -/
def json (field : Field) (s : Settings) : Json :=
  match field with
  | maxCallDepth => .count s.maxCallDepth.toNat
  | enforceConstants => .bool s.enforceConstants
  | seed => (s.seed.map fun n => Json.count n.toNat).getD .null
  | programDir => .string s.programDir

/-- Settings with one field as in the settings `c`. -/
def copy (field : Field) (c s : Settings) : Settings :=
  match field with
  | maxCallDepth => { s with maxCallDepth := c.maxCallDepth }
  | enforceConstants => { s with enforceConstants := c.enforceConstants }
  | seed => { s with seed := c.seed }
  | programDir => { s with programDir := c.programDir }

/-- Settings with another value of one field, if the JSON value is one of that field. -/
def set? (field : Field) (s : Settings) (value : Json) : Option Settings :=
  match field with
  | maxCallDepth => (Json.unsigned? value).map fun n => { s with maxCallDepth := n }
  | enforceConstants => (Json.truth? value).map fun b => { s with enforceConstants := b }
  | seed => (Json.optional? Json.unsigned? value).map fun n => { s with seed := n }
  | programDir => (Json.string? value).map fun dir => { s with programDir := dir }

theorem mem_all (field : Field) : field ∈ all := by
  cases field <;> decide

theorem name_inj {field field' : Field} (h : field.name = field'.name) : field = field' := by
  revert h
  cases field <;> cases field' <;> decide

theorem ofName?_eq_some_iff {name : String} {field : Field} :
    ofName? name = some field ↔ field.name = name := by
  constructor
  · intro h
    have hname := List.find?_some (p := fun field : Field => decide (field.name = name)) h
    exact of_decide_eq_true hname
  · rintro rfl
    cases field <;> rfl

theorem json_copy (field field' : Field) (c s : Settings) :
    field'.json (field.copy c s) = if field' = field then field'.json c else field'.json s := by
  cases field <;> cases field' <;> rfl

/-- A field takes a value if the value is written for it, and nothing else changes. -/
theorem set?_eq_some_iff {field : Field} {s s' : Settings} {value : Json} :
    field.set? s value = some s' ↔ value = field.json s' ∧ field.copy s' s = s' := by
  have hmap {α : Type} {get? : Json → Option α} {write : α → Json} {put : α → Settings}
      {get : Settings → α} (hget : ∀ a, get? value = some a ↔ value = write a)
      (hput : ∀ a, get (put a) = a) :
      (get? value).map put = some s' ↔ value = write (get s') ∧ put (get s') = s' := by
    rw [Option.map_eq_some_iff]
    constructor
    · rintro ⟨a, ha, rfl⟩
      rw [hput]
      exact ⟨(hget a).mp ha, rfl⟩
    · exact fun ⟨hvalue, hs⟩ => ⟨_, (hget _).mpr hvalue, hs⟩
  cases field with
  | maxCallDepth => exact hmap (fun _ => Json.unsigned?_eq_some_iff) fun _ => rfl
  | enforceConstants => exact hmap (fun _ => Json.truth?_eq_some_iff) fun _ => rfl
  | seed =>
    exact hmap (fun _ => Json.optional?_eq_some_iff (fun _ _ => Json.unsigned?_eq_some_iff) rfl)
      fun _ => rfl
  | programDir => exact hmap (fun _ => Json.string?_eq_some_iff) fun _ => rfl

end Field

/-- Settings are determined by their fields as JSON. -/
theorem eq_of_json {a b : Settings} (h : ∀ field : Field, field.json a = field.json b) : a = b := by
  have hdepth := UInt64.toNat_inj.mp (Json.count.inj (h .maxCallDepth))
  have henforce := Json.bool.inj (h .enforceConstants)
  have hseed : a.seed = b.seed := by
    have hread (s : Settings) : Json.optional? Json.unsigned? (Field.seed.json s) = some s.seed :=
      (Json.optional?_eq_some_iff (fun _ _ => Json.unsigned?_eq_some_iff) rfl).mpr rfl
    exact Option.some.inj ((hread a).symm.trans (h .seed ▸ hread b))
  have hdir := Json.string.inj (h .programDir)
  cases a
  cases b
  simp_all

/-! ## Objects -/

/-- Settings with the values of the fields of an object, each of which is still `absent`. -/
def setAll? (absent : List Field) (s : Settings) : List (String × Json) → Option Settings
  | [] => some s
  | (name, value) :: fields =>
    (Field.ofName? name).bind fun field =>
      if field ∈ absent then
        (field.set? s value).bind fun s => setAll? (absent.erase field) s fields
      else none

/-- The settings that an object gives. -/
def ofFields? (fields : List (String × Json)) : Option Settings :=
  setAll? Field.all {} fields

/-- The fields of an object with the listed fields of settings. -/
def fieldsOf (c : Settings) (listed : List Field) : List (String × Json) :=
  listed.map fun field => (field.name, field.json c)

theorem toJson_eq (c : Settings) : c.toJson = .object (c.fieldsOf Field.all) := by
  rw [toJson, fieldsOf]
  cases hseed : c.seed <;> simp [Field.all, Field.name, Field.json, hseed]

/-- An object that is taken has different names, all of them of fields that were absent. -/
theorem names_of_setAll? {absent : List Field} (hnodup : absent.Nodup) {s s' : Settings}
    {fields : List (String × Json)} (h : setAll? absent s fields = some s') :
    (fields.map Prod.fst).Nodup ∧
      ∀ name ∈ fields.map Prod.fst, ∃ field ∈ absent, field.name = name := by
  induction fields generalizing absent s with
  | nil => exact ⟨List.nodup_nil, nofun⟩
  | cons first fields ih =>
    obtain ⟨name, value⟩ := first
    obtain ⟨field, hfield, h⟩ := Option.bind_eq_some_iff.mp h
    split at h
    · next habsent =>
      obtain ⟨s₁, -, h⟩ := Option.bind_eq_some_iff.mp h
      obtain ⟨hnames, hothers⟩ := ih (hnodup.erase field) h
      have hname := Field.ofName?_eq_some_iff.mp hfield
      refine ⟨List.nodup_cons.mpr ⟨fun hmem => ?_, hnames⟩, List.forall_mem_cons.mpr ⟨?_, ?_⟩⟩
      · -- A second field of the name would still be absent.
        obtain ⟨field', hfield', hname'⟩ := hothers name hmem
        rw [Field.name_inj (hname'.trans hname.symm)] at hfield'
        exact hnodup.not_mem_erase hfield'
      · exact ⟨field, habsent, hname⟩
      · intro name' hmem
        obtain ⟨field', hfield', hname'⟩ := hothers name' hmem
        exact ⟨field', List.mem_of_mem_erase hfield', hname'⟩
    · cases h

/-- The listed fields of settings are taken, in any order, and what is not listed stays. -/
theorem exists_setAll? {absent listed : List Field} (hnodup : listed.Nodup)
    (hsub : ∀ field ∈ listed, field ∈ absent) (s c : Settings) :
    ∃ s', setAll? absent s (c.fieldsOf listed) = some s' ∧
      ∀ field : Field, field.json s' = if field ∈ listed then field.json c else field.json s := by
  induction listed generalizing absent s with
  | nil => exact ⟨s, rfl, fun field => (if_neg List.not_mem_nil).symm⟩
  | cons first listed ih =>
    obtain ⟨hfirst, hothers⟩ := List.nodup_cons.mp hnodup
    have hsub' : ∀ field ∈ listed, field ∈ absent.erase first := by
      intro field hfield
      have hne : field ≠ first := by
        rintro rfl
        exact hfirst hfield
      exact (List.mem_erase_of_ne hne).mpr (hsub field (List.mem_cons_of_mem _ hfield))
    obtain ⟨s', hs', hjson⟩ := ih hothers hsub' (first.copy c s)
    refine ⟨s', ?_, fun field => ?_⟩
    · have hname := Field.ofName?_eq_some_iff.mpr (rfl : first.name = _)
      have hset : first.set? s (first.json c) = some (first.copy c s) :=
        Field.set?_eq_some_iff.mpr ⟨by rw [Field.json_copy, if_pos rfl], by cases first <;> rfl⟩
      rw [fieldsOf, List.map_cons, setAll?, hname, Option.bind_some,
        if_pos (hsub first List.mem_cons_self), hset, Option.bind_some]
      exact hs'
    · rw [hjson, Field.json_copy]
      by_cases hlisted : field ∈ listed
      · rw [if_pos hlisted, if_pos (List.mem_cons_of_mem _ hlisted)]
      · rw [if_neg hlisted]
        by_cases hfield : field = first
        · rw [if_pos hfield, if_pos (hfield ▸ List.mem_cons_self)]
        · rw [if_neg hfield, if_neg (List.not_mem_cons_of_ne_of_not_mem hfield hlisted)]

/-! ## Reading -/

/-- A field reads its value, with or without blanks before it. -/
theorem Field.yield?_read (field : Field) (s : Settings) {value : Json} {cs before rest : List Char}
    (hbefore : Blanks cs before) (h : Spells value before rest) (hrest : Ends rest) :
    yield? (field.read s) cs = (field.set? s value).map (·, rest) := by
  have hblanks : field.read s cs = field.read s before := by
    cases field <;> simp only [Field.read, unsigned, truth, string, Json.Reader.optional, bind,
      StateT.bind, hbefore.ahead, hbefore.ahead?]
  rw [yield?, hblanks, ← yield?]
  cases field with
  | maxCallDepth =>
    rw [read, yield?_bind, h.unsigned hrest, set?]
    cases Json.unsigned? value <;> rfl
  | enforceConstants =>
    rw [read, yield?_bind, h.truth, set?]
    cases Json.truth? value <;> rfl
  | seed =>
    rw [read, yield?_bind, h.optional (h.unsigned hrest), set?]
    cases Json.optional? Json.unsigned? value <;> rfl
  | programDir =>
    rw [read, yield?_bind, h.string?, set?]
    cases Json.string? value <;> rfl

theorem yield?_fieldName {name : String} {cs quoted rest : List Char}
    (h : Blanks cs ('"' :: quoted)) (hquoted : Quotes name.toList quoted rest) :
    yield? fieldName cs = some (name, rest) := by
  rw [fieldName, yield?_bind, h.yield?_ahead (by decide), Option.bind_some]
  exact hquoted.quotedString

theorem yield?_colon {cs rest : List Char} (h : Blanks cs (':' :: rest)) :
    yield? colon cs = some ((), rest) := by
  rw [colon, yield?_bind, h.yield?_ahead (by decide)]
  rfl

/-- One field is read, and then what is behind it. -/
theorem yield?_members_cons {absent : List Field} {s : Settings} {name : String} {value : Json}
    {fields : List (String × Json)} {cs after rest : List Char}
    (h : SpellsField (name, value) cs after) (hafter : Ends after)
    (hnext : ∀ field s', yield? (do
      match ← ahead with
      | '\x7d' => advance; pure s'
      | ',' => advance; members (absent.erase field) s'
      | _ => refuse .malformed) after =
        (setAll? (absent.erase field) s' fields).map (·, rest)) :
    yield? (members absent s) cs = (setAll? absent s ((name, value) :: fields)).map (·, rest) := by
  cases h with
  | field hname hquoted hcolon hbefore h =>
    rw [members, yield?_bind, yield?_fieldName hname hquoted, Option.bind_some, setAll?]
    cases Field.ofName? name with
    | none => rfl
    | some field =>
      dsimp only
      rw [Option.bind_some]
      split
      · rw [yield?_bind, yield?_colon hcolon, Option.bind_some, yield?_bind,
          field.yield?_read s hbefore h hafter]
        cases field.set? s value with
        | none => rfl
        | some s' => exact hnext field s'
      · rfl

theorem yield?_members {absent : List Field} {s : Settings} {fields : List (String × Json)}
    {cs rest : List Char} (h : SpellsFields fields cs rest) :
    yield? (members absent s) cs = (setAll? absent s fields).map (·, rest) := by
  induction fields generalizing absent s cs with
  | nil => cases h
  | cons first fields ih =>
    cases h with
    | last h hclose =>
      refine yield?_members_cons h (hclose.ends (by decide) (by decide)) fun field s' => ?_
      rw [yield?_bind, hclose.yield?_ahead (by decide)]
      rfl
    | next h hcomma hothers =>
      refine yield?_members_cons h (hcomma.ends (by decide) (by decide)) fun field s' => ?_
      rw [yield?_bind, hcomma.yield?_ahead (by decide)]
      exact ih hothers

/-- The name of the first field comes first, but for blanks. -/
theorem exists_name {fields : List (String × Json)} {cs rest : List Char}
    (h : SpellsFields fields cs rest) :
    ∃ quoted, Blanks cs ('"' :: quoted) ∧ SpellsFields fields ('"' :: quoted) rest := by
  have htrim {field : String × Json} {after : List Char} (h : SpellsField field cs after) :
      ∃ quoted, Blanks cs ('"' :: quoted) ∧ SpellsField field ('"' :: quoted) after := by
    cases h with
    | field hname hquoted hcolon hbefore h =>
      exact ⟨_, hname, .field (.done _) hquoted hcolon hbefore h⟩
  cases h with
  | last h hclose =>
    obtain ⟨quoted, hname, h⟩ := htrim h
    exact ⟨quoted, hname, .last h hclose⟩
  | next h hcomma hothers =>
    obtain ⟨quoted, hname, h⟩ := htrim h
    exact ⟨quoted, hname, .next h hcomma hothers⟩

theorem yield?_object {fields : List (String × Json)} {cs rest : List Char}
    (h : Spells (.object fields) ('\x7b' :: cs) rest) :
    yield? object cs = (ofFields? fields).map (·, rest) := by
  rw [object, yield?_bind]
  cases h with
  | noFields h =>
    rw [h.yield?_ahead (by decide)]
    rfl
  | object h =>
    obtain ⟨quoted, hname, h⟩ := exists_name h
    rw [hname.yield?_ahead (by decide)]
    exact yield?_members h

/-- Settings are read from the text of an object as the object gives them. -/
theorem toOption_ofJsonText {fields : List (String × Json)} {text : String}
    (h : TextOf (.object fields) text) : (ofJsonText text).toOption = ofFields? fields := by
  obtain ⟨cs, rest, hbefore, hspells, hafter⟩ := h
  obtain ⟨more, rfl⟩ : ∃ more, cs = '\x7b' :: more := by
    cases hspells <;> exact ⟨_, rfl⟩
  have hread : yield? read text.toList = (ofFields? fields).map (·, []) := by
    rw [read, yield?_bind, hbefore.yield?_ahead (by decide), Option.bind_some]
    change yield? (advance >>= fun _ => object >>= fun s => finish >>= fun _ => pure s)
      ('\x7b' :: more) = _
    rw [yield?_bind, yield?_advance, Option.bind_some, List.tail_cons, yield?_bind,
      yield?_object hspells]
    cases ofFields? fields with
    | none => rfl
    | some s =>
      rw [Option.map_some, Option.bind_some, yield?_bind, hafter.yield?_finish]
      rfl
  have htext : (ofJsonText text).toOption = (yield? read text.toList).map Prod.fst := by
    rw [ofJsonText, yield?, StateT.run]
    cases read text.toList <;> rfl
  rw [htext, hread, Option.map_map]
  cases ofFields? fields <;> rfl

/-- The text of an object with some fields of settings is read, and the other fields keep their
defaults. -/
theorem exists_ofJsonText {c : Settings} {listed : List Field} (hnodup : listed.Nodup)
    {text : String} (h : TextOf (.object (c.fieldsOf listed)) text) :
    ∃ s, ofJsonText text = .ok s ∧
      ∀ field : Field, field.json s = if field ∈ listed then field.json c else field.json {} := by
  obtain ⟨s, hs, hjson⟩ := exists_setAll? hnodup (fun field _ => field.mem_all) {} c
  exact ⟨s, toOption_eq_some_iff.mp ((toOption_ofJsonText h).trans hs), hjson⟩

/-- Settings that differ from the defaults in the listed fields only are read back. -/
theorem ofJsonText_fieldsOf {c : Settings} {listed : List Field} (hnodup : listed.Nodup)
    (hothers : ∀ field ∉ listed, field.json c = field.json {}) {text : String}
    (h : TextOf (.object (c.fieldsOf listed)) text) : ofJsonText text = .ok c := by
  obtain ⟨s, hs, hjson⟩ := exists_ofJsonText hnodup h
  have heq : s = c := eq_of_json fun field => by
    rw [hjson]
    split
    · rfl
    · next hfield => exact (hothers field hfield).symm
  rw [hs, heq]

theorem spelled_toJson (c : Settings) : Json.Spelled c.toJson := by
  rw [toJson_eq]
  refine .object fun field hfield => ?_
  obtain ⟨listed, -, rfl⟩ := List.mem_map.mp hfield
  cases listed with
  | maxCallDepth => exact .count _
  | enforceConstants => exact .bool _
  | seed =>
    rw [Field.json]
    cases c.seed with
    | none => exact .null
    | some n => exact .count _
  | programDir => exact .string _

/-- Settings are read back from every text of what they are written as. -/
theorem ofJsonText_toJson {c : Settings} {text : String} (h : TextOf c.toJson text) :
    ofJsonText text = .ok c := by
  rw [toJson_eq] at h
  exact ofJsonText_fieldsOf (by decide) (fun field hfield => absurd field.mem_all hfield) h

/-- An object with an unknown name or with a name twice is refused. -/
theorem ofJsonText_refuses {fields : List (String × Json)} {text : String}
    (h : TextOf (.object fields) text)
    (hnames : (∃ name ∈ fields.map Prod.fst, ∀ field : Field, field.name ≠ name) ∨
      ¬ (fields.map Prod.fst).Nodup) : ∃ r, ofJsonText text = .error r := by
  have hnone : ofFields? fields = none := by
    refine Option.eq_none_iff_forall_ne_some.mpr fun s hs => ?_
    obtain ⟨hnodup, hknown⟩ := names_of_setAll? (by decide) hs
    rcases hnames with ⟨name, hname, hunknown⟩ | htwice
    · obtain ⟨field, -, hfield⟩ := hknown name hname
      exact hunknown field hfield
    · exact htwice hnodup
  exact toOption_eq_none_iff.mp ((toOption_ofJsonText h).trans hnone)

end DivisionScript.Settings
