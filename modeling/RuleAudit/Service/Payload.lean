import RuleAudit.Datum

/-!
# Request bodies

A body is an object with a list of `rules`, each with a `name` and an `expr`, and perhaps `settings`
and, for some requests, `bindings`. A body that does not fit is refused with all its faults, in the
order of the fields.
-/

namespace RuleAudit.Service

variable {K : Type}

/-- What is wrong with a part of a body. -/
inductive Fault where
  | missing
  | notText
  | notList
  | notMapping
  | notObject
deriving DecidableEq, Repr

/-- The word for a fault. -/
def Fault.name : Fault → String
  | missing => "missing"
  | notText => "string_type"
  | notList => "list_type"
  | notMapping => "dict_type"
  | notObject => "model_attributes_type"

/-- A fault, and the keys and indices that lead to it. -/
structure Finding (K : Type) where
  fault : Fault
  path : List (Datum K)

/-- A rule of a body. -/
structure Item (K : Type) where
  name : String
  expr : Datum K

/-- The contents of a body. -/
structure Payload (K : Type) where
  items : List (Item K)
  settings : List (Datum K × Datum K) := []
  bindings : List (Datum K × Datum K) := []

/-- A checked part of a body, or its faults. -/
abbrev Checked (K α : Type) := Except (List (Finding K)) α

namespace Checked

variable {α β γ : Type}

/-- Two parts; the faults of both are listed. -/
def both (a : Checked K α) (b : Checked K β) (f : α → β → γ) : Checked K γ :=
  match a, b with
  | .ok x, .ok y => .ok (f x y)
  | .error xs, .ok _ => .error xs
  | .ok _, .error ys => .error ys
  | .error xs, .error ys => .error (xs ++ ys)

/-- A part with one fault. -/
def fault (f : Fault) (path : List (Datum K)) : Checked K α :=
  .error [⟨f, path⟩]

end Checked

namespace Payload

/-- Check a rule. -/
def readItem (path : List (Datum K)) (d : Datum K) : Checked K (Item K) :=
  match d with
  | .mapping entries =>
    let name : Checked K String := match Datum.field? "name" entries with
      | some (.text s) => .ok s
      | some _ => .fault .notText (path ++ [.text "name"])
      | none => .fault .missing (path ++ [.text "name"])
    let expr : Checked K (Datum K) := match Datum.field? "expr" entries with
      | some e => .ok e
      | none => .fault .missing (path ++ [.text "expr"])
    name.both expr Item.mk
  | _ => .fault .notObject path

/-- Check the rules from an index on. -/
def readItems (path : List (Datum K)) : Nat → List (Datum K) → Checked K (List (Item K))
  | _, [] => .ok []
  | index, d :: rest =>
    (readItem (path ++ [.int index]) d).both (readItems path (index + 1) rest) List.cons

/-- Check the list of rules. -/
def readRules (entries : List (Datum K × Datum K)) : Checked K (List (Item K)) :=
  let path := [.text "body", .text "rules"]
  match Datum.field? "rules" entries with
  | some (.list ds) => readItems path 0 ds
  | some _ => .fault .notList path
  | none => .fault .missing path

/-- Check a mapping that may be left out. -/
def readMapping (key : String) (entries : List (Datum K × Datum K)) :
    Checked K (List (Datum K × Datum K)) :=
  match Datum.field? key entries with
  | some (.mapping es) => .ok es
  | some _ => .fault .notMapping [.text "body", .text key]
  | none => .ok []

/-- Check a body; a null body is none. -/
def read (withBindings : Bool) (body : Option (Datum K)) : Checked K (Payload K) :=
  match body with
  | none => .fault .missing [.text "body"]
  | some .null => .fault .missing [.text "body"]
  | some (.mapping entries) =>
    let base := (readRules entries).both (readMapping "settings" entries) fun is ss => ⟨is, ss, []⟩
    if withBindings then
      base.both (readMapping "bindings" entries) fun p bs => { p with bindings := bs }
    else base
  | some _ => .fault .notObject [.text "body"]

end Payload

end RuleAudit.Service
