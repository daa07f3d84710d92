import RuleAudit.Proofs.Datum
import RuleAudit.Proofs.Failure
import RuleAudit.Tree.Items

/-!
# Errors of definitions

Whatever is wrong with an expression is an error in a definition: a number of a clause that is not
finite, a variable of two kinds, an atom that is no clause. So normalising an expression and
collecting rules fail in no other way (`Expr.failsOnly_toDnf`, `Collected.failsOnly_add`).
-/

namespace RuleAudit

open Outcome

variable {K : Type} [Scalar K]

/-- An error in the definition of a rule. -/
def Error.IsDefinition : Error K → Prop
  | definition .. => True
  | _ => False

theorem Error.isDefinition_flaw (f : Flaw K) : (Error.flaw f).IsDefinition := trivial

/-- An error in the definition of a rule lets the rule be skipped. -/
theorem Error.isSkippable_of_isDefinition {e : Error K} (h : e.IsDefinition) :
    Tree.isSkippable e = true := by
  cases e with
  | definition site f => rfl
  | _ => exact h.elim

/-! ### Clauses -/

theorem VarName.failsOnly_read (d : Datum K) : FailsOnly Error.IsDefinition (VarName.read d) := by
  cases d with
  | text s =>
    rw [read]
    split
    · exact failsOnly_ok _
    · exact failsOnly_error (Error.isDefinition_flaw _)
  | _ => exact failsOnly_error (Error.isDefinition_flaw _)

theorem Quantity.failsOnly_check (q : Quantity) (x : K) (given : Datum K) :
    FailsOnly Error.IsDefinition (q.check x given) :=
  failsOnly_ite (fun _ => failsOnly_ok x) fun _ => failsOnly_error (Error.isDefinition_flaw _)

namespace LinearClause

theorem failsOnly_ofPairs (pairs : List (String × K)) (relation : Relation) (rhs : K) :
    FailsOnly Error.IsDefinition (ofPairs pairs relation rhs) := by
  refine (failsOnly_mapM fun p _ => ?_).bind fun terms _ => ?_
  · exact (VarName.failsOnly_read _).bind fun name _ => (Quantity.failsOnly_check _ _ _).map _
  · exact (Quantity.failsOnly_check _ _ _).map _

theorem failsOnly_rebuild (c : LinearClause K) (keep : String → Bool) (relation : Relation)
    (rhs : K) : FailsOnly Error.IsDefinition (c.rebuild keep relation rhs) := by
  refine (failsOnly_forIn fun p _ => ?_).bind fun _ _ => ?_
  · exact (Quantity.failsOnly_check _ _ _).map _
  · exact (Quantity.failsOnly_check _ _ _).map _

end LinearClause

theorem Clause.failsOnly_negate (c : Clause K) : FailsOnly Error.IsDefinition c.negate := by
  cases c with
  | linear c => exact failsOnly_mapM fun r _ => (c.failsOnly_rebuild _ _ _).map _
  | membership c => exact failsOnly_ok _
  | foreign d => exact failsOnly_error (Error.isDefinition_flaw _)

/-! ### Normal forms -/

namespace Census

theorem failsOnly_registerVar (site : Site K) (kind : VarKind) (kinds : List (String × VarKind))
    (name : String) : FailsOnly Error.IsDefinition (registerVar site kind kinds name) := by
  rw [registerVar]
  split
  · exact failsOnly_ok _
  · exact failsOnly_ite (fun _ => failsOnly_ok _) fun _ => failsOnly_error trivial

theorem failsOnly_register (rule : Datum K) (census : Census) (c : Clause K) :
    FailsOnly Error.IsDefinition (census.register rule c) := by
  have henter : ∀ kind, FailsOnly Error.IsDefinition
      (c.vars.foldlM (registerVar (⟨rule, some census.next⟩ : Site K) kind) census.kinds) :=
    fun kind => failsOnly_foldlM fun name _ kinds => failsOnly_registerVar _ _ _ _
  cases c with
  | linear c => exact (henter .numeric).map _
  | membership c => exact (henter .categorical).map _
  | foreign d => exact failsOnly_error trivial

end Census

namespace Expr

variable {rule : Datum K}

mutual
theorem failsOnly_normalize : ∀ (e : Expr K) (positive : Bool) (census : Census),
    FailsOnly Error.IsDefinition (normalize rule e positive census)
  | .atom c, positive, census => by
    rw [normalize]
    refine (Census.failsOnly_register _ _ _).bind fun next _ => ?_
    cases positive with
    | true => exact failsOnly_ok _
    | false => exact c.failsOnly_negate.map _
  | .const _, _, _ => failsOnly_ok _
  | .not e, positive, census => by
    rw [normalize]
    exact failsOnly_normalize e (!positive) census
  | .ifThen a c, positive, census => by
    rw [normalize]
    refine (failsOnly_normalize a (!positive) census).bind fun ⟨_, next⟩ _ => ?_
    exact (failsOnly_normalize c positive next).bind fun _ _ => failsOnly_ok _
  | .and args, positive, census => by
    rw [normalize]
    exact (failsOnly_normalizeEach args positive census).bind fun _ _ => failsOnly_ok _
  | .or args, positive, census => by
    rw [normalize]
    exact (failsOnly_normalizeEach args positive census).bind fun _ _ => failsOnly_ok _
  | .foreign _, _, _ => failsOnly_error trivial

theorem failsOnly_normalizeEach : ∀ (es : List (Expr K)) (positive : Bool) (census : Census),
    FailsOnly Error.IsDefinition (normalizeEach rule es positive census)
  | [], _, _ => failsOnly_ok _
  | e :: rest, positive, census => by
    rw [normalizeEach]
    refine (failsOnly_normalize e positive census).bind fun ⟨_, next⟩ _ => ?_
    exact (failsOnly_normalizeEach rest positive next).bind fun _ _ => failsOnly_ok _
end

theorem failsOnly_toDnf (e : Expr K) (rule : Datum K) :
    FailsOnly Error.IsDefinition (e.toDnf rule) :=
  (failsOnly_normalize e true .start).map _

theorem failsOnly_negate (e : Expr K) (rule : Datum K) :
    FailsOnly Error.IsDefinition (e.negate rule) :=
  (failsOnly_normalize e false .start).map _

end Expr

theorem Dnf.failsOnly_kinds (d : Dnf K) (rule : Datum K) :
    FailsOnly Error.IsDefinition (d.kinds rule) :=
  (failsOnly_foldlM fun _ _ _ => Census.failsOnly_register _ _ _).map _

/-! ### Rules -/

namespace Rule

theorem failsOnly_readName (name : Datum K) : FailsOnly Error.IsDefinition (readName name) := by
  cases name with
  | text s =>
    rw [readName]
    split
    · exact failsOnly_ok _
    · exact failsOnly_error (Error.isDefinition_flaw _)
  | _ => exact failsOnly_error (Error.isDefinition_flaw _)

theorem failsOnly_make (name : Datum K) (e : Expr K) : FailsOnly Error.IsDefinition (make name e) :=
  (failsOnly_readName name).bind fun _ _ => failsOnly_ok _

theorem failsOnly_dnf (r : Rule K) : FailsOnly Error.IsDefinition r.dnf := by
  rw [dnf]
  split
  · exact failsOnly_ok _
  · exact r.expr.failsOnly_toDnf _

theorem failsOnly_kinds (r : Rule K) : FailsOnly Error.IsDefinition r.kinds :=
  r.failsOnly_dnf.bind fun d _ => d.failsOnly_kinds _

end Rule

theorem failsOnly_mergeKinds (clash : Clash) (rule : Datum K)
    (kinds more : List (String × VarKind)) :
    FailsOnly Error.IsDefinition (mergeKinds clash rule kinds more) := by
  induction more generalizing kinds with
  | nil => exact failsOnly_ok _
  | cons entry more ih =>
    obtain ⟨name, kind⟩ := entry
    rw [mergeKinds]
    split
    · exact ih _
    · exact failsOnly_ite (fun _ => ih _) fun _ => failsOnly_error trivial

/-! ### Collecting rules -/

namespace RuleSet

theorem failsOnly_ofList (rules : List (Rule K)) : FailsOnly Error.IsDefinition (ofList rules) := by
  rw [ofList]
  split
  · exact failsOnly_ok _
  · exact failsOnly_error trivial

theorem Collected.failsOnly_add (c : Collected K) (r : Rule K) :
    FailsOnly Error.IsDefinition (c.add r) := by
  rw [add]
  refine failsOnly_ite (fun _ => failsOnly_error trivial) fun _ => ?_
  refine r.failsOnly_kinds.bind fun kinds _ => ?_
  exact (failsOnly_mergeKinds _ _ _ _).bind fun _ _ => failsOnly_ok _

end RuleSet

end RuleAudit
