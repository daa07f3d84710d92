import Mathlib.Data.List.DropRight
import RuleAudit.Proofs.Query.Alike
import RuleAudit.Proofs.Query.Simplify
import RuleAudit.Proofs.Tree.Reload

/-!
# Simplified sets are stable

A simplified set that is written and read back is simplified to itself
(`Oracle.exists_simplify_reread`). The last round changed nothing, and a round does the same to the
rules that are read back, since these are alike. What it takes is that the simplified rules survive
the writing: a round makes its rules from clauses, so they can be written, and the only new names
are those of pins, which have no white space around them when the variables have none.
-/

namespace RuleAudit

open Outcome

/-! ### White space around names -/

namespace Text

/-- No white space at either end. -/
def IsBare (cs : List Char) : Prop :=
  (∀ c ∈ cs.head?, isBlank c = false) ∧ ∀ c ∈ cs.getLast?, isBlank c = false

theorem isBare_stripChars (cs : List Char) : IsBare (stripChars cs) := by
  have hstrip : stripChars cs = (cs.dropWhile isBlank).rdropWhile isBlank := rfl
  rw [hstrip]
  constructor
  · intro c hc
    obtain ⟨rest, hrest⟩ := List.rdropWhile_prefix isBlank (cs.dropWhile isBlank)
    have hhead := List.head?_dropWhile_not isBlank cs
    rw [← hrest, List.head?_append, Option.mem_def.mp hc] at hhead
    exact hhead
  · intro c hc
    obtain ⟨hne, rfl⟩ := List.mem_getLast?_eq_getLast hc
    exact Bool.eq_false_iff.mpr (List.rdropWhile_last_not isBlank _ hne)

theorem stripChars_of_isBare {cs : List Char} (h : IsBare cs) : stripChars cs = cs := by
  have hhead : cs.dropWhile isBlank = cs := by
    cases cs with
    | nil => rfl
    | cons c cs => exact List.dropWhile_cons_of_neg (Bool.eq_false_iff.mp (h.1 c rfl))
  have hstrip : stripChars cs = (cs.dropWhile isBlank).rdropWhile isBlank := rfl
  rw [hstrip, hhead, List.rdropWhile_eq_self_iff]
  exact fun hne => Bool.eq_false_iff.mp (h.2 _ (List.getLast?_eq_some_getLast hne))

theorem strip_eq_self_iff {s : String} : strip s = s ↔ IsBare s.toList := by
  rw [strip, ← String.toList_inj, String.toList_ofList]
  exact ⟨fun h => h ▸ isBare_stripChars s.toList, stripChars_of_isBare⟩

theorem strip_strip (s : String) : strip (strip s) = strip s := by
  rw [strip_eq_self_iff, strip, String.toList_ofList]
  exact isBare_stripChars s.toList

theorem strip_append {s t : String} (hs : strip s = s) (ht : strip t = t) :
    strip (s ++ t) = s ++ t := by
  rw [strip_eq_self_iff] at hs ht ⊢
  rw [String.toList_append]
  constructor
  · rw [List.head?_append]
    exact fun c hc => (Option.or_eq_some_iff.mp hc).elim (hs.1 c) fun h => ht.1 c h.2
  · rw [List.getLast?_append]
    exact fun c hc => (Option.or_eq_some_iff.mp hc).elim (ht.2 c) fun h => hs.2 c h.2

/-- The name of the pin of a variable has white space around it only if the variable has. -/
theorem strip_pinName {n : String} (h : strip n = n) : strip (pinName n) = pinName n :=
  strip_append (by decide +kernel) h

end Text

/-! ### Expressions that are read off -/

namespace Expr

theorem isWritable_atom {c : Clause Rat} (hc : c.IsProper) : (atom c).IsWritable := by
  cases c with
  | linear c => exact .atom ⟨fun _ _ => rfl, rfl⟩
  | membership c => exact .atom trivial
  | foreign v => exact hc.elim

theorem isWritable_ofTerm {term : Term Rat} (h : ∀ c ∈ term, c.IsProper) :
    (ofTerm term).IsWritable := by
  unfold ofTerm
  split
  · next c => exact isWritable_atom (h c (List.mem_singleton_self c))
  · exact .and (List.forall_mem_map.mpr fun c hc => isWritable_atom (h c hc))

/-- An expression that is read off a normal form can be written. -/
theorem isWritable_ofDnf {d : Dnf Rat} (hd : d.Within Clause.IsProper) :
    (ofDnf d).IsWritable := by
  unfold ofDnf
  split
  · exact .const false
  · split
    · exact .const true
    · split
      · next term _ _ => exact isWritable_ofTerm (hd term (List.mem_singleton_self term))
      · exact .or (List.forall_mem_map.mpr fun term hterm => isWritable_ofTerm (hd term hterm))

end Expr

/-! ### Plain rules -/

namespace Rule

variable {r q : Rule Rat} {name : String} {d : Dnf Rat}

/-- No mark, and an expression that can be written if the normal form is made of clauses. -/
structure IsPlain (r : Rule Rat) : Prop where
  unmarked : r.mark? = none
  isWritable : ∀ d, r.dnf = .ok d → d.Within Clause.IsProper → r.expr.IsWritable

theorem isPlain_of_ofDnf (h : ofDnf (.text name) d = .ok r) : r.IsPlain := by
  obtain ⟨-, -, h⟩ := bind_eq_ok.mp h
  obtain ⟨n, -, h⟩ := bind_eq_ok.mp h
  obtain rfl := Except.ok.inj h
  refine ⟨rfl, fun d' hd' hproper => ?_⟩
  obtain rfl : d.reduce = d' := Except.ok.inj hd'
  exact Expr.isWritable_ofDnf hproper

theorem isPlain_of_make {e : Expr Rat} {name : Datum Rat} (he : e.IsWritable)
    (h : make name e = .ok r) : r.IsPlain := by
  obtain ⟨n, -, h⟩ := bind_eq_ok.mp h
  obtain rfl := Except.ok.inj h
  exact ⟨rfl, fun _ _ _ => he⟩

theorem isPlain_of_pin {var : String} {value : Datum Rat} {kind : Option VarKind}
    (h : pin (.text var) value kind = .ok r) : r.IsPlain := by
  unfold pin at h
  split at h
  · obtain ⟨c, -, h⟩ := bind_eq_ok.mp h
    exact isPlain_of_make (Expr.isWritable_atom (c := .linear c) trivial) h
  · obtain ⟨c, -, h⟩ := bind_eq_ok.mp h
    exact isPlain_of_make (Expr.isWritable_atom (c := .membership c) trivial) h

/-- Rules that are made are plain, and stay plain when a round keeps them. -/
theorem isLikeness_isPlain : IsLikeness fun r q : Rule Rat => r.Alike q ∧ r.IsPlain :=
  ⟨And.left, fun h => ⟨.refl _, isPlain_of_ofDnf h⟩, fun h => ⟨.refl _, isPlain_of_pin h⟩⟩

end Rule

/-! ### What a round leaves -/

/-- No white space around the name of a rule or around its variables. -/
structure Rule.IsBare (r : Rule Rat) : Prop where
  name : Text.strip r.name = r.name
  vars : ∀ u ∈ r.clauses.flatMap Clause.uses, Text.strip u.1 = u.1

/-- A rule that survives being written and read back. -/
structure Rule.IsPresentable (L : Lexicon) (r : Rule Rat) : Prop where
  fits : r.Fits L
  plain : r.IsPlain
  bare : r.IsBare

theorem Rule.IsPresentable.isWritable {L : Lexicon} {r : Rule Rat} (h : r.IsPresentable L) :
    r.expr.IsWritable := by
  obtain ⟨d, hd, hwithin⟩ := h.fits
  exact h.plain.isWritable d hd fun term hterm c hc => (hwithin term hterm c hc).1.1

namespace Oracle

variable {o : Oracle Rat} {L : Lexicon} {s t : RuleSet Rat}

section Rounds

variable (hsolver : o.solver.Exact o.settings)

include hsolver

/-- The rules that fixed variables leave behind: the name of a pin is made of a variable in use. -/
theorem bare_of_simplifyFixed (h : ∀ r ∈ s.rules, r.Fits L) (hbare : ∀ r ∈ s.rules, r.IsBare)
    (ht : (o.simplifyFixed s).outcome = .ok t) : ∀ r ∈ t.rules, r.IsBare := by
  obtain ⟨fixed, hfixed, -, hsuits, -⟩ := exists_fixed_suits hsolver h
  rcases exists_simplifyFixed h hfixed fun p hp => (hsuits p hp).2 with
    ⟨-, hsame⟩ | ⟨-, rules', ⟨kept, plug, keep, pin, ⟨rfl, hplugged, -⟩, hpin, rfl⟩, hlist⟩
  · exact Except.ok.inj (hsame.symm.trans ht) ▸ hbare
  rw [RuleSet.rules_of_ofList (hlist.symm.trans ht)]
  refine List.forall_mem_append.mpr ⟨List.forall_mem_map.mpr fun r hr => ?_,
    List.forall_mem_map.mpr fun p hp => ?_⟩
  · have hmem := (List.mem_filter.mp hr).1
    have hr := hplugged r hmem
    exact ⟨hr.name ▸ (hbare r hmem).name, fun u hu => (hbare r hmem).vars u (hr.uses hu)⟩
  · have htarget := (List.mem_filter.mp hp).1
    obtain ⟨n, hn, hpinned⟩ := hpin p htarget
    have hstrip : Text.strip n.1 = n.1 := by
      obtain ⟨r, hr, hu⟩ := mem_usesIn.mp (hsuits p (mem_targetsIn.mp htarget).1).2
      rw [hn]
      exact (hbare r hr).vars (p.1, p.2.kind) hu
    constructor
    · rw [hpinned.name]
      exact Text.strip_pinName hstrip
    · rw [Rule.clauses_eq hpinned.dnf]
      simpa [FixedValue.uses_clause] using hstrip

theorem presentable_of_simplifyRound (h : ∀ r ∈ s.rules, r.IsPresentable L)
    (ht : (o.simplifyRound s).outcome = .ok t) : ∀ r ∈ t.rules, r.IsPresentable L := by
  have hround := ht
  rw [simplifyRound_outcome] at hround
  obtain ⟨mid, hmid, hround⟩ := bind_eq_ok.mp hround
  have hfits := fun r hr => (h r hr).fits
  have hmidBare := bare_of_simplifyFixed hsolver hfits (fun r hr => (h r hr).bare) hmid
  have hmidFits : ∀ r ∈ mid.rules, r.Fits L := by
    obtain ⟨e, he, -⟩ | ⟨mid', hmid', hall, -⟩ := simplifyFixed_cases hsolver hfits
    · rw [he] at hmid
      cases hmid
    · exact Except.ok.inj (hmid'.symm.trans hmid) ▸ hall
  obtain ⟨t', ht', hclean, -⟩ := exists_cleanUp hsolver hmidFits
  obtain rfl := Except.ok.inj (ht'.symm.trans hround)
  -- a round with itself beside it shows that the rules stay plain
  have hplain : s.Related (fun r q => r.Alike q ∧ r.IsPlain) s :=
    List.forall₂_same.mpr fun r hr => ⟨.refl r, (h r hr).plain⟩
  obtain ⟨t'', ht'', hrelated⟩ := o.mirrors_simplifyRound Rule.isLikeness_isPlain hplain t' ht
  obtain rfl := Except.ok.inj (ht.symm.trans ht'')
  refine fun r hr => ⟨hclean.fits hmidFits r hr, ?_, ?_⟩
  · exact (List.forall₂_same.mp hrelated r hr).2
  · obtain ⟨r', hr', htrimmed⟩ := hclean.trimmed r hr
    refine ⟨htrimmed.name ▸ (hmidBare r' hr').name, fun u hu => ?_⟩
    obtain ⟨c, hc, hu⟩ := List.mem_flatMap.mp hu
    exact (hmidBare r' hr').vars u
      (List.mem_flatMap.mpr ⟨c, htrimmed.subset_clauses hc, hu⟩)

/-- The rounds end with presentable rules, which another round gives back. -/
theorem stable_of_simplifyRounds {limit n : Nat} (h : ∀ r ∈ s.rules, r.IsPresentable L)
    (ht : (o.simplifyRounds limit n s).outcome = .ok t) : (∀ r ∈ t.rules, r.IsPresentable L) ∧
      ∃ next, (o.simplifyRound t).outcome = .ok next ∧ (next == t) = true := by
  induction n generalizing s with
  | zero => cases ht
  | succ n ih =>
    rw [simplifyRounds_succ] at ht
    obtain ⟨next, hnext, ht⟩ := bind_eq_ok.mp ht
    split at ht
    · next hsame =>
      obtain rfl := Except.ok.inj ht
      exact ⟨h, next, hnext, hsame⟩
    · exact ih (presentable_of_simplifyRound hsolver h hnext) ht

end Rounds

end Oracle

/-! ### Reading back -/

theorem RuleSet.beq_of_alike {rules rules' others others' : List (Rule Rat)}
    (h : List.Forall₂ Rule.Alike rules rules') (hothers : List.Forall₂ Rule.Alike others others')
    (hmarks : ∀ r ∈ others, r.mark? = none) (hmarks' : ∀ r ∈ others', r.mark? = none) :
    (rules' == others') = (rules == others) := by
  have hunmarked : ∀ r q : Rule Rat, q.mark? = none →
      (r == q) = (r.name == q.name && r.expr == q.expr) := fun r q hq => by
    have hmark : r.sharesMark q = false := by
      rw [Rule.sharesMark, hq]
      cases r.mark? <;> rfl
    have hbeq : (r == q) = (r.name == q.name && (r.sharesMark q || r.expr == q.expr)) := rfl
    rw [hbeq, hmark, Bool.false_or]
  induction h generalizing others others' with
  | nil => cases hothers <;> rfl
  | cons hr _ ih =>
    cases hothers with
    | nil => rfl
    | cons hq hrest =>
      obtain ⟨hmark, hmarks⟩ := List.forall_mem_cons.mp hmarks
      obtain ⟨hmark', hmarks'⟩ := List.forall_mem_cons.mp hmarks'
      rw [List.cons_beq_cons, List.cons_beq_cons, ih hrest hmarks hmarks', hunmarked _ _ hmark,
        hunmarked _ _ hmark', hr.name_eq, hq.name_eq, hr.expr_eq, hq.expr_eq]

/-- Over the rationals, a rule that is read back is alike. -/
theorem Rule.alike_of_rereads {L : Lexicon} {rules reread : List (Rule Rat)}
    (h : List.Forall₂ Rereads rules reread) (hfits : ∀ r ∈ rules, r.Fits L) :
    List.Forall₂ Alike rules reread ∧ ∀ q ∈ reread, q.mark? = none := by
  induction h with
  | nil => exact ⟨.nil, List.forall_mem_nil _⟩
  | cons hr _ ih =>
    obtain ⟨⟨d, hd, -⟩, hfits⟩ := List.forall_mem_cons.mp hfits
    obtain ⟨e, he, hsame⟩ := hr.exists_dnf d hd
    obtain ⟨halike, hmarks⟩ := ih hfits
    refine ⟨.cons ⟨hr.name_eq, ?_, ?_⟩ halike, List.forall_mem_cons.mpr ⟨hr.unmarked.2, hmarks⟩⟩
    · exact (Expr.dropSigns_eq_self _).symm.trans (hr.expr_eq.trans (Expr.dropSigns_eq_self _))
    · rw [he, hd, ← Dnf.mapClauses_dropSign e, hsame, Dnf.mapClauses_dropSign]

namespace Tree

variable {s : RuleSet Rat} {L : Lexicon}

/-- Alike rules are written in the same way. -/
theorem mapM_ofRule_of_alike {rules rules' : List (Rule Rat)}
    (h : List.Forall₂ Rule.Alike rules rules') : rules'.mapM ofRule = rules.mapM ofRule := by
  induction h with
  | nil => rfl
  | cons hr _ ih => rw [List.mapM_cons, List.mapM_cons, ih, ofRule, ofRule, hr.name_eq, hr.expr_eq]

/-- Presentable rules are read back as alike ones. -/
theorem exists_alike (h : ∀ r ∈ s.rules, r.IsPresentable L) :
    ∃ items t, ofRules s = .ok items ∧ (∀ strict, ofItems items strict = ⟨.ok t, []⟩) ∧
      s.Related Rule.Alike t ∧ ∀ r ∈ t.rules, r.mark? = none := by
  have hfits := fun r hr => (h r hr).fits
  obtain ⟨items, t, hwrite, hread, hall⟩ := exists_ofItems (kindConsistent_of_fits hfits)
    (fun r hr => (h r hr).isWritable) fun r hr => (h r hr).bare.name
  exact ⟨items, t, hwrite, hread, Rule.alike_of_rereads hall hfits⟩

end Tree

/-- Simplifying the rules that are read from a simplified set gives them back. -/
theorem Oracle.exists_simplify_reread {o : Oracle Rat} {L : Lexicon} {s t : RuleSet Rat}
    (hsolver : o.solver.Exact o.settings) (h : ∀ r ∈ s.rules, r.IsPresentable L)
    (ht : (o.simplify s []).outcome = .ok t) :
    ∃ items u, Tree.ofRules t = .ok items ∧ (∀ strict, Tree.ofItems items strict = ⟨.ok u, []⟩) ∧
      (o.simplify u []).outcome = .ok u ∧ Tree.ofRules u = .ok items := by
  have hfits := fun r hr => (h r hr).fits
  rw [simplify_outcome rfl (isFeasible_eq hsolver hfits)] at ht
  obtain ⟨hpresentable, hend⟩ : (∀ r ∈ t.rules, r.IsPresentable L) ∧
      (o.isFeasible t = .ok false ∨
        ∃ next, (o.simplifyRound t).outcome = .ok next ∧ (next == t) = true) := by
    split at ht
    · exact (stable_of_simplifyRounds hsolver h ht).imp_right .inr
    · next hinfeasible =>
      obtain rfl := Except.ok.inj ht
      refine ⟨h, .inl ?_⟩
      rw [isFeasible_eq hsolver hfits, Bool.eq_false_of_not_eq_true hinfeasible]
  obtain ⟨items, u, hwrite, hread, hrelated, hmarks⟩ := Tree.exists_alike hpresentable
  refine ⟨items, u, hwrite, hread, ?_, (Tree.mapM_ofRule_of_alike hrelated).trans hwrite⟩
  have hfeasible : o.isFeasible u = o.isFeasible t :=
    o.isFeasible_of_related Rule.isLikeness_alike hrelated
  have hverdict := isFeasible_eq hsolver fun r hr => (hpresentable r hr).fits
  rw [simplify_outcome rfl (hfeasible.trans hverdict)]
  split
  · next hsatisfiable =>
    obtain ⟨next, hnext, hsame⟩ := hend.resolve_left fun hinfeasible => by
      rw [hverdict, hsatisfiable] at hinfeasible
      cases hinfeasible
    obtain ⟨next', hnext', hrelated'⟩ :=
      o.mirrors_simplifyRound Rule.isLikeness_alike hrelated next hnext
    have hbeq : (next' == u) = (next == t) := RuleSet.beq_of_alike hrelated' hrelated
      (fun r hr => (hpresentable r hr).plain.unmarked) hmarks
    rw [simplifyRounds_succ, hnext', ok_bind, hbeq, hsame, if_pos rfl]
  · rfl

end RuleAudit
