import RuleAudit.Assoc
import RuleAudit.Binary64
import RuleAudit.Clause
import RuleAudit.Clause.Build
import RuleAudit.Datum
import RuleAudit.Datum.Sort
import RuleAudit.Decimal.Layout
import RuleAudit.Decimal.Shortest
import RuleAudit.Dnf.Checked
import RuleAudit.Dnf.Holds
import RuleAudit.Dnf.Normalize
import RuleAudit.Dnf.Reduce
import RuleAudit.Dnf.Substitute
import RuleAudit.Error
import RuleAudit.Expr
import RuleAudit.Files
import RuleAudit.Json.Reader
import RuleAudit.Json.Writer
import RuleAudit.Numeral
import RuleAudit.Program
import RuleAudit.Program.Build
import RuleAudit.Program.Decode
import RuleAudit.Program.Rows
import RuleAudit.Program.Variables
import RuleAudit.Proofs.Binary64
import RuleAudit.Proofs.Clause
import RuleAudit.Proofs.Datum
import RuleAudit.Proofs.Dnf.Natural
import RuleAudit.Proofs.Dnf.Normalize
import RuleAudit.Proofs.Dnf.Polarity
import RuleAudit.Proofs.Dnf.ReadOff
import RuleAudit.Proofs.Dnf.Reduce
import RuleAudit.Proofs.Dnf.Substitute
import RuleAudit.Proofs.Failure
import RuleAudit.Proofs.Lexicon
import RuleAudit.Proofs.Outcome
import RuleAudit.Proofs.Program.Closed
import RuleAudit.Proofs.Program.Exact
import RuleAudit.Proofs.Program.Names
import RuleAudit.Proofs.Program.Points
import RuleAudit.Proofs.Program.Rows
import RuleAudit.Proofs.Program.Usage
import RuleAudit.Proofs.Program.Vocabulary
import RuleAudit.Proofs.Query.Alike
import RuleAudit.Proofs.Query.Answer
import RuleAudit.Proofs.Query.Categorical
import RuleAudit.Proofs.Query.Conditional
import RuleAudit.Proofs.Query.Contradiction
import RuleAudit.Proofs.Query.Culprits
import RuleAudit.Proofs.Query.Endings
import RuleAudit.Proofs.Query.Feasibility
import RuleAudit.Proofs.Query.Fixed
import RuleAudit.Proofs.Query.Hinted
import RuleAudit.Proofs.Query.Outcomes
import RuleAudit.Proofs.Query.Plugging
import RuleAudit.Proofs.Query.Redundancy
import RuleAudit.Proofs.Query.Rounds
import RuleAudit.Proofs.Query.Simplify
import RuleAudit.Proofs.Query.Stable
import RuleAudit.Proofs.Query.Verdict
import RuleAudit.Proofs.Rational
import RuleAudit.Proofs.Rule
import RuleAudit.Proofs.Rule.Bind
import RuleAudit.Proofs.Rule.Collect
import RuleAudit.Proofs.Rule.Derived
import RuleAudit.Proofs.Rule.Flaws
import RuleAudit.Proofs.Rule.Pin
import RuleAudit.Proofs.RuleSet
import RuleAudit.Proofs.Scalar
import RuleAudit.Proofs.Service
import RuleAudit.Proofs.Service.Opening
import RuleAudit.Proofs.Service.Simplify
import RuleAudit.Proofs.Settings
import RuleAudit.Proofs.Signs
import RuleAudit.Proofs.Solver.Standard
import RuleAudit.Proofs.Tree.Faults
import RuleAudit.Proofs.Tree.Items
import RuleAudit.Proofs.Tree.Linear
import RuleAudit.Proofs.Tree.Meaning
import RuleAudit.Proofs.Tree.Presentable
import RuleAudit.Proofs.Tree.Reader
import RuleAudit.Proofs.Tree.Reload
import RuleAudit.Proofs.Tree.RoundTrip
import RuleAudit.Proofs.Valuation
import RuleAudit.Query
import RuleAudit.Query.Contradiction
import RuleAudit.Query.Culprits
import RuleAudit.Query.Fixed
import RuleAudit.Query.Implication
import RuleAudit.Query.Simplify
import RuleAudit.Rule
import RuleAudit.Rule.Bind
import RuleAudit.Rule.Build
import RuleAudit.Scalar
import RuleAudit.Service
import RuleAudit.Service.Payload
import RuleAudit.Service.Route
import RuleAudit.Settings
import RuleAudit.Solver
import RuleAudit.Solver.Elimination
import RuleAudit.Solver.Search
import RuleAudit.Solver.Standard
import RuleAudit.Text.Blank
import RuleAudit.Text.Digit
import RuleAudit.Text.Parts
import RuleAudit.Text.Percent
import RuleAudit.Text.Printable
import RuleAudit.Text.Quoted
import RuleAudit.Text.Utf8
import RuleAudit.Tree.Items
import RuleAudit.Tree.Linear
import RuleAudit.Tree.Reader
import RuleAudit.Tree.Writer
import RuleAudit.Yaml.Layout
import RuleAudit.Yaml.Plain
import RuleAudit.Yaml.Reader
import RuleAudit.Yaml.Scalar
import RuleAudit.Yaml.Style
import RuleAudit.Yaml.Writer
import RuleAudit.Proofs.Dnf.Same
import RuleAudit.Proofs.Rule.Remembered
import RuleAudit.Proofs.Query.Implication
import RuleAudit.Proofs.Query.Range
import RuleAudit.Proofs.Dnf.Clausewise
import RuleAudit.Proofs.Dnf.Override
import RuleAudit.Proofs.Dnf.Stepwise
import RuleAudit.Proofs.Rule.Bound
import RuleAudit.Proofs.Rule.Sift
import RuleAudit.Proofs.Query.Pinning
import RuleAudit.Proofs.Query.PinNames
import RuleAudit.Proofs.Dnf.Canonical
import RuleAudit.Proofs.Dnf.Flaws
import RuleAudit.Proofs.Dnf.Slack
import RuleAudit.Proofs.Solver.Limits
import RuleAudit.Proofs.Clause.Form
import RuleAudit.Proofs.Clause.Finite
import RuleAudit.Proofs.Program.Census
import RuleAudit.Proofs.Query.Census
