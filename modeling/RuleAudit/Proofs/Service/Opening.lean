import RuleAudit.Proofs.Rule.Derived
import RuleAudit.Proofs.Settings
import RuleAudit.Proofs.Tree.Items
import RuleAudit.Service

/-!
# Opening a body

The rules and the settings of a body are read with the errors that they may have, and the body is
blamed for those. What is left is a number of the body that is out of range: that error is of a
kind that nobody is blamed for (`Service.ends_opened`).
-/

namespace RuleAudit

open Outcome

variable {K : Type}

namespace Service

/-! ### Contents of a body -/

theorem Checked.both_eq_ok {α β γ : Type} {a : Checked K α} {b : Checked K β} {f : α → β → γ}
    {z : γ} (h : a.both b f = .ok z) : ∃ x y, a = .ok x ∧ b = .ok y ∧ f x y = z := by
  unfold both at h
  split at h
  · exact ⟨_, _, rfl, rfl, Except.ok.inj h⟩
  all_goals cases h

/-- What is read from a body occurs in it. -/
structure Payload.IsFrom (p : Payload K) (body : Datum K) : Prop where
  items : ∀ i ∈ p.items, Datum.IsPart i.expr body
  settings : ∀ e ∈ p.settings, Datum.IsPart e.2 body
  bindings : ∀ e ∈ p.bindings, Datum.IsPart e.2 body

namespace Payload

theorem isPart_of_readItem {path : List (Datum K)} {d : Datum K} {i : Item K}
    (h : readItem path d = .ok i) : Datum.IsPart i.expr d := by
  unfold readItem at h
  split at h
  · next entries =>
    obtain ⟨name, e, -, he, rfl⟩ := Checked.both_eq_ok h
    split at he
    · next e' he' =>
      obtain rfl := Except.ok.inj he
      exact Datum.isPart_of_field? Datum.isPart_mapping he'
    · cases he
  · cases h

theorem exists_isPart_of_readItems {path : List (Datum K)} {index : Nat} {ds : List (Datum K)}
    {items : List (Item K)} (h : readItems path index ds = .ok items) :
    ∀ i ∈ items, ∃ d ∈ ds, Datum.IsPart i.expr d := by
  induction ds generalizing index items with
  | nil =>
    obtain rfl := Except.ok.inj h
    exact List.forall_mem_nil _
  | cons d ds ih =>
    obtain ⟨i, rest, hi, hrest, rfl⟩ := Checked.both_eq_ok h
    refine List.forall_mem_cons.mpr ⟨⟨d, List.mem_cons_self, isPart_of_readItem hi⟩, fun j hj => ?_⟩
    exact (ih hrest j hj).imp fun _ => And.imp_left (List.mem_cons_of_mem d)

theorem isPart_of_readRules {entries : List (Datum K × Datum K)} {items : List (Item K)}
    (h : readRules entries = .ok items) : ∀ i ∈ items, Datum.IsPart i.expr (.mapping entries) := by
  unfold readRules at h
  dsimp only at h
  split at h
  · next ds hds =>
    intro i hi
    obtain ⟨d, hd, hpart⟩ := exists_isPart_of_readItems h i hi
    exact .trans (.item hd hpart) (Datum.isPart_of_field? Datum.isPart_mapping hds)
  · cases h
  · cases h

theorem isPart_of_readMapping {key : String} {entries es : List (Datum K × Datum K)}
    (h : readMapping key entries = .ok es) : ∀ e ∈ es, Datum.IsPart e.2 (.mapping entries) := by
  unfold readMapping at h
  split at h
  · next es' hes =>
    obtain rfl := Except.ok.inj h
    exact fun e he => (Datum.isPart_mapping e he).trans
      (Datum.isPart_of_field? Datum.isPart_mapping hes)
  · cases h
  · obtain rfl := Except.ok.inj h
    exact List.forall_mem_nil _

theorem exists_isFrom {withBindings : Bool} {body : Option (Datum K)} {p : Payload K}
    (h : read withBindings body = .ok p) : ∃ b ∈ body, p.IsFrom b := by
  unfold read at h
  split at h
  · cases h
  · cases h
  · next entries =>
    refine ⟨_, rfl, ?_⟩
    have hbase : ∀ p, ((readRules entries).both (readMapping "settings" entries)
        fun is ss => (⟨is, ss, []⟩ : Payload K)) = .ok p → p.IsFrom (.mapping entries) := by
      intro p h
      obtain ⟨items, settings, hitems, hsettings, rfl⟩ := Checked.both_eq_ok h
      exact ⟨isPart_of_readRules hitems, isPart_of_readMapping hsettings, List.forall_mem_nil _⟩
    cases withBindings with
    | false => exact hbase p h
    | true =>
      obtain ⟨base, bindings, hread, hbindings, rfl⟩ := Checked.both_eq_ok h
      obtain ⟨hitems, hsettings, -⟩ := hbase base hread
      exact ⟨hitems, hsettings, isPart_of_readMapping hbindings⟩
  · cases h

end Payload

end Service

variable [Scalar K]

/-! ### Rules from items -/

theorem Rule.isProper_of_ofTree {name tree : Datum K} {r : Rule K}
    (h : ofTree name tree = .ok r) : r.expr.IsProper := by
  obtain ⟨e, -, h⟩ := bind_eq_ok.mp h
  obtain ⟨made, hmade, h⟩ := bind_eq_ok.mp h
  obtain ⟨d, hd, h⟩ := bind_eq_ok.mp h
  obtain rfl := Except.ok.inj h
  obtain ⟨n, -, hmade⟩ := bind_eq_ok.mp hmade
  obtain rfl := Except.ok.inj hmade
  exact Expr.isProper_of_toDnf hd

namespace RuleSet

theorem Collected.ends_run (strict : Bool) {c : Collected K} {rules : List (Rule K)}
    (hc : ∀ r ∈ c.rules, r.expr.IsProper) (hrules : ∀ r ∈ rules, r.expr.IsProper) :
    Ends Error.IsDefinition (∀ r ∈ ·.rules, r.expr.IsProper) (run strict c rules).outcome := by
  induction rules generalizing c with
  | nil => exact ends_ok hc
  | cons r rules ih =>
    obtain ⟨hr, hrules⟩ := List.forall_mem_cons.mp hrules
    rw [run]
    split
    · next c' hadd =>
      refine ih ?_ hrules
      rw [(rules_of_add hadd).1]
      exact List.forall_mem_append.mpr ⟨hc, List.forall_mem_singleton.mpr hr⟩
    · next e hadd =>
      split
      · rw [Reported.outcome_bind, Reported.outcome_warn]
        exact ih hc hrules
      · exact ends_error (c.failsOnly_add r _ hadd)

theorem ends_collect {rules : List (Rule K)} (h : ∀ r ∈ rules, r.expr.IsProper) (strict : Bool) :
    Ends Error.IsDefinition IsProper (collect rules strict).outcome :=
  Reported.ends_bind (Collected.ends_run strict (List.forall_mem_nil _) h) fun _ hc =>
    ends_ofList hc

end RuleSet

namespace Tree

variable {E : Error K → Prop} {items : List (Datum K)}

/-- Items are read to rules that are made of clauses, or one of them cannot be read. -/
theorem ends_readItems (h : ∀ d ∈ items, ∀ index, Ends E
      (fun p => FailsOnly E (Rule.ofTree (.text p.1) p.2)) (item index d))
    (strict : Bool) (index : Nat) :
    Ends E (∀ r ∈ ·, r.expr.IsProper) (readItems strict index items).outcome := by
  induction items generalizing index with
  | nil => exact ends_ok (List.forall_mem_nil _)
  | cons d items ih =>
    obtain ⟨hd, hitems⟩ := List.forall_mem_cons.mp h
    rw [readItems]
    refine Reported.ends_bind (hd index) fun p hread => ?_
    obtain ⟨name, tree⟩ := p
    dsimp only
    split
    · next r hr =>
      refine Reported.ends_bind (ih hitems _) fun rules hrules => ?_
      exact ends_ok (List.forall_mem_cons.mpr ⟨Rule.isProper_of_ofTree hr, hrules⟩)
    · next e he =>
      split
      · rw [Reported.outcome_bind, Reported.outcome_warn]
        exact ih hitems _
      · exact ends_error (hread e he)

theorem ends_ofItems (hdefinition : ∀ e : Error K, e.IsDefinition → E e)
    (h : ∀ d ∈ items, ∀ index, Ends E
      (fun p => FailsOnly E (Rule.ofTree (.text p.1) p.2)) (item index d)) (strict : Bool) :
    Ends E RuleSet.IsProper (ofItems items strict).outcome :=
  Reported.ends_bind (ends_readItems h strict 0) fun _ hrules =>
    (RuleSet.ends_collect hrules strict).imp_error hdefinition

end Tree

namespace Service

/-! ### Blame -/

variable {body : Datum K} {e : Error K}

/-- An error that a body is blamed for, or about a number of it that is out of range. -/
def Blamed (body : Datum K) (e : Error K) : Prop :=
  Tree.isSkippable (blame e) = true ∨ e.IsOverflowIn body

theorem blamed_of_isSkippable (h : Tree.isSkippable e = true) : Blamed body e := by
  cases e with
  | definition site f => exact .inl rfl
  | encoding site obstacle => exact .inl rfl
  | _ => cases h

theorem blamed_of_refuses (h : e.Refuses body) : Blamed body e := by
  refine h.imp_left fun hargument => ?_
  cases e with
  | mistyped m => rfl
  | invalid v => rfl
  | _ => exact hargument.elim

theorem blamed_of_fails {tree : Datum K} (hpart : Datum.IsPart tree body) (h : Tree.Fails tree e) :
    Blamed body e := by
  obtain h | ⟨hn, hint⟩ | ⟨-, -⟩ := h
  · exact blamed_of_isSkippable h
  · exact .inr ⟨rfl, _, hn.trans hpart, Datum.isOversized_int hint⟩
  · -- keys that have no order are a wrong type, for which the body is blamed
    exact .inl rfl

/-- Blaming the body leaves errors of definitions, and numbers that are out of range. -/
theorem Blamed.blame (h : Blamed body e) :
    Tree.isSkippable (blame e) = true ∨ (Service.blame e).IsOverflowIn body := by
  refine h.imp_right fun hoverflow => ?_
  obtain ⟨rfl, hpart⟩ := hoverflow
  exact ⟨rfl, hpart⟩

/-- The rules and the settings of a body. -/
theorem ends_opened (hdefault : Settings.HasDefaults K) (solver : Solver K) {p : Payload K}
    (hp : p.IsFrom body) :
    Ends (fun e => Tree.isSkippable e = true ∨ e.IsOverflowIn body)
      (fun so => so.1.IsProper ∧ so.2.solver = solver ∧
        (Settings.ofMapping p.settings).outcome = .ok so.2.settings) (opened solver p).outcome := by
  refine Reported.ends_tryCatch (E := Blamed body) ?_ fun e he => ends_error he.blame
  have hsettings := Settings.failsOnly_ofMapping hdefault hp.settings
  refine Reported.ends_bind (hsettings.mono fun _ => blamed_of_refuses).ends fun _ hread => ?_
  refine Reported.ends_bind (P := RuleSet.IsProper) ?_ fun s hs => ends_ok ⟨hs, rfl, hread⟩
  have hdefinition : ∀ e : Error K, e.IsDefinition → Blamed body e := fun _ he =>
    blamed_of_isSkippable (Error.isSkippable_of_isDefinition he)
  refine Tree.ends_ofItems hdefinition (fun d hd index => ?_) true
  obtain ⟨i, hi, rfl⟩ := List.mem_map.mp hd
  refine ends_ite (fun _ => ends_error (blamed_of_refuses (.inl trivial))) fun _ => ends_ok ?_
  exact (Tree.failsOnly_ofTree _ _).mono fun e => blamed_of_fails (hp.items i hi)

end Service

end RuleAudit
