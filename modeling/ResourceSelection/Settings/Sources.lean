import ResourceSelection.Document.Reading
import ResourceSelection.Error
import ResourceSelection.Text.Blank

/-!
# Where settings come from

Settings are read from a document, or are the usual ones with changes from the environment. Either
way they are validated before anyone gets them.

A variable of the environment holds bytes. One that is not set, or whose bytes are no text, leaves
the usual value in place. The name is taken as it stands; every other value is read without the
blanks around it, and quoted with them when it cannot be read.
-/

namespace ResourceSelection

/-- What the variables of the environment hold, for those that are set. -/
abbrev Environment := String → Option ByteArray

/-- The text that a variable holds. -/
def Environment.text? (env : Environment) (name : String) : Option String :=
  (env name).bind String.fromUTF8?

/-- The value that a variable stands for, if it is set to a text. -/
def Environment.read {α : Type} (env : Environment) (name : String)
    (read : List Char → Option α) : Except (SettingsFault Float) (Option α) :=
  match env.text? name with
  | none => .ok none
  | some raw =>
    match read (Text.trim raw.toList) with
    | some value => .ok (some value)
    | none => .error (.unreadableVariable name raw)

namespace Settings

/-- Settings that can be used, or the first thing that is wrong with them. -/
def validated (s : Settings Float) : Except (SettingsFault Float) (Settings Float) :=
  match s.validate with
  | .ok () => .ok s
  | .error fault => .error fault

/-- The settings that a TOML document spells. -/
def ofToml (text : String) : Except Error (Settings Float) :=
  match (Document.Toml.parse? text).bind Settings.read? with
  | none => .error .parse
  | some s => s.validated.mapError SettingsFault.toError

/-- The usual settings, changed by what the environment says. -/
def ofEnvironment (env : Environment) : Except (SettingsFault Float) (Settings Float) := do
  let s : Settings Float := .default
  let s := { s with name := (env.text? "FAILOVER_NAME").getD s.name }
  let factor ← env.read "FAILOVER_PRIORITY_FACTOR" Decimal.float?
  let interval ← env.read "FAILOVER_CHECK_INTERVAL_MS" (Decimal.natUpTo? 0xFFFFFFFFFFFFFFFF)
  let threshold ← env.read "FAILOVER_ALIAS_SAMPLING_THRESHOLD" (Decimal.natUpTo? 0xFFFFFFFFFFFFFFFF)
  let counts ← env.read "FAILOVER_CONCURRENCY_CONTROL" Decimal.bool?
  validated { s with
    priorityFactor := factor.getD s.priorityFactor
    checkInterval := interval.getD s.checkInterval
    aliasThreshold := threshold.getD s.aliasThreshold
    countsCalls := counts.getD s.countsCalls }

end Settings

end ResourceSelection
