import RuleAudit.Text.Percent
import RuleAudit.Text.Parts

/-!
# Routes

The paths of the service and the method that each one takes. A target may name a host before its
path and a query behind it; neither matters. The steps `.` and `..` are taken first, then the path
is decoded, once by the sender and once by the receiver. Slashes at the end do not matter either:
such a path is sent on as a new target without them.
-/

namespace RuleAudit.Service

/-- What can be asked of the service. -/
inductive Route where
  | ping
  | feasibility
  | impliedBy (name : String)
  | contradictedBy (name : String)
  | simplify
deriving DecidableEq, Repr

namespace Route

/-! ### Paths -/

/-- The path without its query and its fragment. -/
def withoutQuery (path : List Char) : List Char :=
  path.takeWhile fun c => c ≠ '?' ∧ c ≠ '#'

/-- The path behind a host that the target begins with. -/
def withoutHost (path : List Char) : List Char :=
  match path with
  | '/' :: '/' :: rest => rest.dropWhile (· ≠ '/')
  | path => path

/-- Take one step along a path; the root is not left. -/
def step (path : List (List Char)) (segment : List Char) : List (List Char) :=
  if segment = ['.'] then path
  else if segment = ['.', '.'] then
    if path = [] ∨ path = [[]] then path else path.dropLast
  else path ++ [segment]

/-- A path whose steps `.` and `..` are taken. -/
def takeSteps (path : List Char) : List Char :=
  List.intercalate ['/'] ((Text.parts '/' path).foldl step [])

/-- The path that an absolute target asks for. -/
def decoded (path : List Char) : List Char :=
  let sent := Text.percentDecode (String.ofList (takeSteps (withoutQuery path)))
  (Text.percentDecode sent).toList

/-- The absolute form of a target. -/
def absolute (target : String) : List Char :=
  '/' :: (withoutHost (withoutQuery target.toList)).dropWhile (· = '/')

/-! ### Routes of paths -/

/-- The rest of a path after a beginning. -/
def after? (start : String) (path : List Char) : Option (List Char) :=
  let cs := start.toList
  if cs.isPrefixOf path then some (path.drop cs.length) else none

/-- A path, perhaps with a line break at its end. -/
def isPath (expected : String) (path : List Char) : Bool :=
  (after? expected path).any fun rest => rest = [] || rest = ['\n']

/-- The name at the end of a path. It is neither empty nor holds a slash. -/
def nameAfter? (start : String) (path : List Char) : Option String := do
  let name ← after? start path
  if name.isEmpty || name.contains '/' then none else some (String.ofList name)

/-- The route of a path as it stands. -/
def ofExactPath? (path : List Char) : Option Route :=
  if isPath "/api/ping" path then some ping
  else if isPath "/api/feasibility" path then some feasibility
  else if isPath "/api/simplify" path then some simplify
  else (nameAfter? "/api/implied-by/" path).map impliedBy <|>
    (nameAfter? "/api/contradicted-by/" path).map contradictedBy

/-- A list without the slashes at its end. -/
def trimSlashes (path : List Char) : List Char :=
  (path.reverse.dropWhile (· = '/')).reverse

/-- The route of a path that may end in slashes. Every path that is sent on is shorter than the one
before it, so its length bounds their number. -/
def ofPath? : Nat → List Char → Option Route
  | 0, _ => none
  | fuel + 1, path => ofExactPath? path <|> do
    let trimmed := trimSlashes path
    if trimmed.length < path.length && (ofExactPath? trimmed).isSome then
      ofPath? fuel (decoded trimmed)
    else none

/-- The route of the target of a request. -/
def ofTarget? (target : String) : Option Route :=
  ofPath? (target.length + 1) (decoded (absolute target))

/-- The method that a route takes. -/
def method : Route → String
  | ping => "GET"
  | _ => "POST"

end Route

end RuleAudit.Service
