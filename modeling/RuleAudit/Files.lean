import RuleAudit.Settings
import RuleAudit.Tree.Items
import RuleAudit.Yaml.Reader
import RuleAudit.Yaml.Writer

/-!
# Rule files and settings files

A rule file is a YAML mapping with a list of `rules`, and a settings file one with a mapping under
`solver`. Other entries are passed over. A rule set is written as a rule file that reads back.
-/

namespace RuleAudit

variable {K : Type} [Scalar K]

/-- The data in a YAML text. -/
def readYaml (text : String) : Except (Error K) (Datum K) :=
  match Yaml.read? text with
  | some d => .ok d
  | none => .error .malformed

namespace RuleFile

/-- The items of a rule file. -/
def items (d : Datum K) : Except (Error K) (List (Datum K)) :=
  match d with
  | .mapping entries => match Datum.field? "rules" entries with
    | some (.list items) => .ok items
    | some _ => .error (.invalid .ruleList)
    | none => .error (.invalid .ruleFile)
  | _ => .error (.invalid .ruleFile)

/-- Read a rule file. -/
def read (text : String) (strict : Bool) : Reported K (RuleSet K) := do
  Tree.ofItems (← Reported.lift (do items (← readYaml text))) strict

/-- Write a rule file. -/
def write (s : RuleSet K) : Except (Error K) String :=
  return Yaml.write (.record [("rules", .list (← Tree.ofRules s))])

end RuleFile

namespace SettingsFile

/-- The mapping with the settings. -/
def entries (d : Datum K) : Except (Error K) (List (Datum K × Datum K)) :=
  match d with
  | .mapping fields => match Datum.field? "solver" fields with
    | some (.mapping entries) => .ok entries
    | _ => .error (.invalid .settingsFile)
  | _ => .error (.invalid .settingsFile)

/-- Read a settings file; without one the settings have their defaults. -/
def read (text : Option String) : Reported K (Settings K) :=
  match text with
  | none => Reported.lift Settings.default
  | some text => do Settings.ofMapping (← Reported.lift (do entries (← readYaml text)))

end SettingsFile

end RuleAudit
