import DivisionScript.Proofs.CommandLine.Files
import DivisionScript.Proofs.Settings.Reading

/-!
# Command line — Settings

Settings in three layers: what the options of a command say goes before what its file of settings
says, and that before the defaults. The layers are put together field by field. A file can hold any
settings, and every field with its default may be left out of it.
-/

namespace DivisionScript

namespace CommandLine

open Settings (Field)

/-- What options say about a field of settings, as JSON. -/
def Options.given? (o : Options) : Field → Option Json
  | .maxCallDepth => o.maxCallDepth.map fun n => .count n.toNat
  | .enforceConstants => if o.advisoryConstants then some (.bool false) else none
  | .seed => o.seed.map fun n => .count n.toNat
  | .programDir => o.programDir.map .string

/-- Options go before settings, in each field by itself. -/
theorem Options.json_applyTo (o : Options) (s : Settings) (field : Field) :
    field.json (o.applyTo s) = (o.given? field).getD (field.json s) := by
  cases field with
  | maxCallDepth =>
    rw [given?, Field.json, applyTo]
    cases o.maxCallDepth <;> rfl
  | enforceConstants =>
    rw [given?, Field.json, applyTo]
    cases o.advisoryConstants <;> simp [Field.json]
  | seed =>
    rw [given?, Field.json, applyTo]
    cases o.seed <;> rfl
  | programDir =>
    rw [given?, Field.json, applyTo]
    cases o.programDir <;> rfl

theorem Options.enforceConstants_applyTo (o : Options) (s : Settings) :
    (o.applyTo s).enforceConstants = false ↔
      o.advisoryConstants = true ∨ s.enforceConstants = false := by
  rw [applyTo]
  cases o.advisoryConstants <;> simp

/-- The file of settings that options name holds an object with the given fields; without a file
there are none. -/
def FileGives (w : World Id) (options : Options) (c : Console) (fields : List (String × Json)) :
    Prop :=
  match options.config with
  | none => fields = []
  | some path => ∃ text, Opened.text? (c.openPath w path) = some text ∧
      Json.TextOf (.object fields) text

/-- Settings are loaded if the file gives fields that are taken. -/
theorem toOption_loadSettings_of_gives {w : World Id} {options : Options} {c : Console}
    {fields : List (String × Json)} (h : FileGives w options c fields) :
    Except.toOption (loadSettings w options c : Id _) =
      (Settings.ofFields? fields).map options.applyTo := by
  rw [toOption_loadSettings, settings?]
  rw [FileGives] at h
  cases hconfig : options.config with
  | none =>
    rw [hconfig] at h
    dsimp only at h
    rw [h]
    rfl
  | some path =>
    rw [hconfig] at h
    obtain ⟨text, htext, h⟩ := h
    dsimp only
    rw [htext, Option.bind_some, Settings.toOption_ofJsonText h]

/-- Settings survive their JSON form, and the settings of a command are put together field by field.
The text of an object with some fields of settings is read back, in any order and however it is
spelled, if the other fields have their defaults; so is what the settings are written as. A name
that is no field's is refused, and so is a name that comes twice. A command takes each field from
its options, or else from its file, or else from the defaults; constants are not enforced if the
options or the file say so. -/
theorem settings_survive_and_layer (c : Settings) :
    (∀ listed : List Field, listed.Nodup → (∀ field ∉ listed, field.json c = field.json {}) →
      ∀ text, Json.TextOf (.object (c.fieldsOf listed)) text → Settings.ofJsonText text = .ok c) ∧
    Settings.ofJsonText c.toJson.compact = .ok c ∧ Settings.ofJsonText c.toJson.spread = .ok c ∧
    (∀ fields text, Json.TextOf (.object fields) text →
      ((∃ name ∈ fields.map Prod.fst, ∀ field : Field, field.name ≠ name) ∨
        ¬ (fields.map Prod.fst).Nodup) → ∃ r, Settings.ofJsonText text = .error r) ∧
    ∀ (w : World Id) (options : Options) (console : Console) (listed : List Field), listed.Nodup →
      FileGives w options console (c.fieldsOf listed) →
      ∃ s, (loadSettings w options console : Except Trouble Settings) = .ok s ∧
        (∀ field : Field, field.json s = (options.given? field).getD
          (if field ∈ listed then field.json c else field.json {})) ∧
        (s.enforceConstants = false ↔ options.advisoryConstants = true ∨
          .enforceConstants ∈ listed ∧ c.enforceConstants = false) := by
  refine ⟨fun listed hnodup hothers text h => Settings.ofJsonText_fieldsOf hnodup hothers h,
    Settings.ofJsonText_toJson c.spelled_toJson.textOf_compact,
    Settings.ofJsonText_toJson c.spelled_toJson.textOf_spread,
    fun fields text h hnames => Settings.ofJsonText_refuses h hnames,
    fun w options console listed hnodup hgives => ?_⟩
  obtain ⟨s, hs, hjson⟩ := Settings.exists_setAll? hnodup (fun field _ => field.mem_all) {} c
  have hloaded : Except.toOption (loadSettings w options console : Id _) =
      some (options.applyTo s) := by
    rw [toOption_loadSettings_of_gives hgives, Settings.ofFields?, hs, Option.map_some]
  refine ⟨_, toOption_eq_some_iff.mp hloaded, fun field => ?_, ?_⟩
  · rw [Options.json_applyTo, hjson]
  · have henforce := hjson .enforceConstants
    rw [Options.enforceConstants_applyTo]
    by_cases hlisted : Field.enforceConstants ∈ listed
    · rw [if_pos hlisted] at henforce
      simp [Json.bool.inj henforce, hlisted]
    · rw [if_neg hlisted] at henforce
      simp [Json.bool.inj henforce, hlisted]

/-- A seed alone, between blanks, the first character of its name written by its code: as a text, as
the file of a command with other options, and as that of a command whose options have another
seed. -/
theorem seed_read_back :
    let text := String.ofList [' ', '\x7b', ' ', '"', '\\', 'u', '0', '0', '7', '3', 'e', 'e', 'd',
      '"', ' ', ':', ' ', '7', '\x7d']
    let w : World Id := ⟨fun _ _ => .contents text.toUTF8, [], 0, 0⟩
    let console : Console := ⟨.ofBytes [], .unlimited, "", .off, 0, 0⟩
    let loaded (options : Options) : Except Trouble Settings :=
      loadSettings w { options with config := some "settings" } console
    Settings.ofJsonText text = .ok { seed := some 7 } ∧
    loaded { maxCallDepth := some 3, advisoryConstants := true } =
      .ok { maxCallDepth := 3, enforceConstants := false, seed := some 7 } ∧
    loaded { seed := some 9 } = .ok { seed := some 9 } := by
  intro text w console loaded
  let c : Settings := { seed := some 7 }
  have hspells : Json.TextOf (.object (c.fieldsOf [.seed])) text := by
    have hblank (cs : List Char) : Json.Blanks (' ' :: cs) cs := .blank (by decide) (.done cs)
    have hcode (cs : List Char) : Json.HexCode 0x73 ('0' :: '0' :: '7' :: '3' :: cs) cs :=
      .digits (a := 0) (b := 0) (c := 7) (d := 3) ⟨by decide, .inl rfl⟩ ⟨by decide, .inl rfl⟩
        ⟨by decide, .inl rfl⟩ ⟨by decide, .inl rfl⟩ cs
    have hname (cs : List Char) : Json.Quotes "seed".toList
        ('\\' :: 'u' :: '0' :: '0' :: '7' :: '3' :: 'e' :: 'e' :: 'd' :: '"' :: cs) cs :=
      .code (hcode _) (by decide) (.plain (by decide) (by decide) (by decide)
        (.plain (by decide) (by decide) (by decide)
          (.plain (by decide) (by decide) (by decide) (.close cs))))
    rw [Json.TextOf, String.toList_ofList]
    exact ⟨_, _, hblank _, .object (.last (.field (hblank _) (hname _) (hblank _) (hblank _)
      (.count 7 _)) (.done _)), .done _⟩
  have hothers : ∀ field ∉ [Field.seed], field.json c = field.json {} := by
    intro field hfield
    cases field with
    | seed => exact absurd List.mem_cons_self hfield
    | _ => rfl
  have hfile : Opened.text? (.contents text.toUTF8) = some text := dif_pos text.isValidUTF8
  obtain ⟨hread, -, -, -, hlayers⟩ := settings_survive_and_layer c
  have hloaded (options : Options) (s : Settings)
      (hs : ∀ field : Field, field.json s = (options.given? field).getD
        (if field ∈ [Field.seed] then field.json c else field.json {})) :
      loaded options = .ok s := by
    obtain ⟨s', hs', hjson, -⟩ := hlayers w { options with config := some "settings" } console
      [.seed] (by decide) ⟨text, hfile, hspells⟩
    have hsame : s' = s := Settings.eq_of_json fun field => by
      rw [hjson, hs]
      cases field <;> rfl
    exact hs'.trans (congrArg Except.ok hsame)
  refine ⟨hread [.seed] (by decide) hothers text hspells, ?_, ?_⟩
  · exact hloaded _ _ fun field => by cases field <;> rfl
  · exact hloaded _ _ fun field => by cases field <;> rfl

end CommandLine

end DivisionScript
