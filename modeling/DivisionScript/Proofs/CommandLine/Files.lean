import Mathlib.Data.Option.Basic
import DivisionScript.CommandLine.Command
import DivisionScript.Proofs.State

/-!
# Command line — Files, proved

What a command finds in its files before it does anything with them: the settings and the text of
the program. A file has a text if it can be opened, is no directory and holds UTF-8; nothing else
about it has an influence on whether it can be read.
-/

namespace DivisionScript.CommandLine

/-- The text of a file, given what opening it leads to. -/
def Opened.text? : Opened → Option String
  | contents bytes => String.fromUTF8? bytes
  | _ => none

theorem toOption_mapError {ε ε' α : Type} (f : ε → ε') (result : Except ε α) :
    (result.mapError f).toOption = result.toOption := by
  cases result <;> rfl

theorem toOption_decode (bytes : ByteArray) :
    (Text.decode bytes).toOption = String.fromUTF8? bytes := by
  rw [Text.decode]
  cases String.fromUTF8? bytes <;> rfl

theorem Opened.toOption_source (path : String) (opened : Opened) :
    (opened.source path).toOption = opened.text? := by
  cases opened with
  | contents bytes => exact (toOption_mapError ..).trans (toOption_decode bytes)
  | _ => rfl

theorem Opened.toOption_settingsText (opened : Opened) :
    opened.settingsText.toOption = opened.text? := by
  cases opened with
  | contents bytes => exact (toOption_mapError ..).trans (toOption_decode bytes)
  | _ => rfl

variable (w : World Id) (options : Options) (c : Console)

/-- The settings that a command finds, given its options. -/
def settings? : Option Settings :=
  match options.config with
  | none => some (options.applyTo {})
  | some path =>
    (Opened.text? (c.openPath w path)).bind fun text =>
      (Settings.ofJsonText text).toOption.map options.applyTo

theorem toOption_loadSettings :
    Except.toOption (loadSettings w options c : Id _) = settings? w options c := by
  rw [loadSettings, settings?]
  cases options.config with
  | none => rfl
  | some path =>
    dsimp only [bind, pure]
    rw [← Opened.toOption_settingsText]
    generalize Opened.settingsText (c.openPath w path) = text
    cases text with
    | error trouble => rfl
    | ok text =>
      show _ = (Settings.ofJsonText text).toOption.map options.applyTo
      rw [Except.bind]
      cases Settings.ofJsonText text <;> rfl

end DivisionScript.CommandLine
