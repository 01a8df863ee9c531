import NibblePascal.Settings.Entry

/-!
# The settings file

`Settings.parse?` reads the settings of a text.  Keys that mean nothing here are passed over; a
key with a meaning may stand only once.
-/

namespace NibblePascal

/-- What a settings file may set. -/
structure Settings where
  output : Option String := none
  symbols : Option String := none
  optimize : Option Bool := none
  legacyKeywords : Option Bool := none
  deriving DecidableEq, Repr, Inhabited

namespace Settings

/-! ### Fields -/

/-- The plain texts that mean nothing. -/
def isNull (text : String) : Bool := ["", "~", "null", "Null", "NULL"].contains text

/-- A value as an optional text. -/
def textValue? : Value → Option (Option String)
  | .plain text => some (if isNull text then none else some text)
  | .quoted text => some (some text)
  | .other => none

/-- A value as an optional truth value. -/
def boolValue? : Value → Option (Option Bool)
  | .plain text =>
      if isNull text then some none
      else if ["true", "True", "TRUE"].contains text then some (some true)
      else if ["false", "False", "FALSE"].contains text then some (some false)
      else none
  | _ => none

/-- The only value of a key, if it is there; none at all if it is there twice. -/
def field? (entries : List (String × Value)) (key : String) : Option (Option Value) :=
  match entries.filter (·.1 == key) with
  | [] => some none
  | [e] => some (some e.2)
  | _ => none

/-- A field of a settings file, absent if the key is. -/
def read? {α : Type} (entries : List (String × Value)) (key : String)
    (value? : Value → Option (Option α)) : Option (Option α) := do
  match ← field? entries key with
  | none => return none
  | some v => value? v

/-- The settings of a settings file, if it is one. -/
def parse? (text : String) : Option Settings := do
  let entries ← entries? text
  return {
    output := ← read? entries "output" textValue?
    symbols := ← read? entries "symbols" textValue?
    optimize := ← read? entries "optimize" boolValue?
    legacyKeywords := ← read? entries "legacy_keywords" boolValue? }

end Settings

end NibblePascal
