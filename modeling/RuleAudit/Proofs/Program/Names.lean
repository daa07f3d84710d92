import Mathlib.Data.List.Pairwise
import RuleAudit.Proofs.Program.Vocabulary

/-!
# Names of decision variables

The name of a decision variable is put together from texts that rules choose freely. Its first
letter tells what it stands for, and the number in it tells selectors and markers of different
rules apart, so these names never clash. Two indicators can have one name: a label may begin where
the name of another variable goes on. Apart from that the names of a program differ.
-/

namespace RuleAudit

/-! ### First letters -/

theorem head?_numericName (v : String) : (numericName v).toList.head? = some 'n' := by
  simp [numericName]

theorem head?_indicatorName (v : String) (l : Option String) :
    (indicatorName v l).toList.head? = some 'c' := by
  cases l <;> simp [indicatorName]

/-! ### Indicators -/

theorem numericName_injective : Function.Injective numericName := by
  intro v w h
  rw [numericName, numericName, String.append_left_inj, String.append_right_inj] at h
  exact h

theorem getLast?_indicatorName_none (v : String) :
    (indicatorName v none).toList.getLast? = some '*' := by
  rw [indicatorName, String.toList_append, List.getLast?_append]
  rfl

theorem getLast?_indicatorName_some (v l : String) :
    (indicatorName v (some l)).toList.getLast? = some ']' := by
  rw [indicatorName, String.toList_append, List.getLast?_append]
  rfl

/-- Indicators of one name are those of all other labels of one variable, or run together in the
same text. -/
theorem indicatorName_eq_iff {v w : String} {l m : Option String} :
    indicatorName v l = indicatorName w m ↔
      l = none ∧ m = none ∧ v = w ∨
        ∃ a b, l = some a ∧ m = some b ∧ v ++ "=" ++ a = w ++ "=" ++ b := by
  cases l with
  | none =>
    cases m with
    | none => simp [indicatorName, String.append_left_inj, String.append_right_inj]
    | some b =>
      refine iff_of_false (fun h => ?_) (by simp)
      -- the names end in different characters
      have hlast := congrArg (·.toList.getLast?) h
      simp only [getLast?_indicatorName_none, getLast?_indicatorName_some] at hlast
      cases hlast
  | some a =>
    cases m with
    | none =>
      refine iff_of_false (fun h => ?_) (by simp)
      have hlast := congrArg (·.toList.getLast?) h
      simp only [getLast?_indicatorName_none, getLast?_indicatorName_some] at hlast
      cases hlast
    | some b =>
      have hassoc (x y : String) : "cat[" ++ x ++ "=" ++ y = "cat[" ++ (x ++ "=" ++ y) := by
        simp [String.append_assoc]
      rw [indicatorName, indicatorName, String.append_left_inj, hassoc, hassoc,
        String.append_right_inj]
      simp

/-! ### Selectors and markers -/

/-- The name belongs to the encoding of the rule at a position. -/
def IsTagged (position : Nat) (name : String) : Prop :=
  ∃ rest, name = "sel[" ++ (toString position ++ ":" ++ rest) ∨
    name = "false[" ++ (toString position ++ ":" ++ rest)

private theorem toDigits_injective : Function.Injective (Nat.toDigits 10) := by
  intro i j h
  rw [← Nat.ofDigitChars_ten_toDigits (n := i), h, Nat.ofDigitChars_ten_toDigits]

/-- A number can be read off a text up to the colon. -/
private theorem position_unique {i j : Nat} {a b : String}
    (h : toString i ++ ":" ++ a = toString j ++ ":" ++ b) : i = j := by
  have hdigits (n : Nat) (rest : String) :
      (toString n ++ ":" ++ rest).toList.takeWhile Char.isDigit = Nat.toDigits 10 n := by
    have hall : ∀ c ∈ Nat.toDigits 10 n, c.isDigit = true := fun c hc =>
      Nat.isDigit_of_mem_toDigits (by decide) (by decide) hc
    -- the colon is no digit, so the digits end there
    rw [String.toList_append, String.toList_append, Nat.toString_eq_repr, Nat.toList_repr,
      List.append_assoc, List.takeWhile_append_of_pos hall]
    simp
  refine toDigits_injective ?_
  rw [← hdigits i a, h, hdigits j b]

theorem IsTagged.position_unique {i j : Nat} {name : String} (hi : IsTagged i name)
    (hj : IsTagged j name) : i = j := by
  obtain ⟨a, rfl | rfl⟩ := hi
  · obtain ⟨b, hb | hb⟩ := hj
    · exact RuleAudit.position_unique ((String.append_right_inj _).mp hb)
    · have hhead := congrArg (·.toList.head?) hb
      simp at hhead
  · obtain ⟨b, hb | hb⟩ := hj
    · have hhead := congrArg (·.toList.head?) hb
      simp at hhead
    · exact RuleAudit.position_unique ((String.append_right_inj _).mp hb)

theorem IsTagged.head? {i : Nat} {name : String} (h : IsTagged i name) :
    name.toList.head? = some 's' ∨ name.toList.head? = some 'f' := by
  obtain ⟨rest, rfl | rfl⟩ := h
  · exact .inl (by simp)
  · exact .inr (by simp)

variable {K : Type} [Scalar K]

namespace Encoding

variable {position : Nat} {rule : String} {dnf : Dnf K} {vocabulary : Vocabulary K}
  {settings : Settings K} {e : Encoding K}

theorem selectorName_injective (tag : String) :
    Function.Injective fun k : Nat => "sel[" ++ tag ++ "#" ++ toString k ++ "]" := by
  intro j k h
  have hjk : toString j = toString k := by
    simpa only [String.append_left_inj, String.append_right_inj] using h
  refine toDigits_injective ?_
  rw [← Nat.toList_repr, ← Nat.toString_eq_repr, hjk, Nat.toString_eq_repr, Nat.toList_repr]

private theorem isTagged_of_mem_selectorNames {name : String} {count : Nat}
    (h : name ∈ selectorNames (toString position ++ ":" ++ rule) count) :
    IsTagged position name := by
  obtain ⟨k, -, rfl⟩ := List.mem_map.mp h
  exact ⟨rule ++ "#" ++ toString k ++ "]", .inl (by simp only [String.append_assoc])⟩

/-- What an encoding adds has different names, each with the number of the rule. -/
theorem names_ofDnf (h : ofDnf position rule dnf vocabulary settings = .ok e) :
    (e.vars.map (·.name)).Nodup ∧ ∀ name ∈ e.vars.map (·.name), IsTagged position name := by
  rcases shape dnf with rfl | htrue | ⟨term, hterm, rfl⟩ | ⟨hlen, hne⟩
  · rw [ofDnf_nil] at h
    obtain rfl := Except.ok.inj h
    refine ⟨List.nodup_singleton _, fun name hname => ?_⟩
    obtain rfl := List.mem_singleton.mp hname
    exact ⟨rule ++ "]", .inr (by simp only [String.append_assoc])⟩
  · rw [ofDnf_of_mem htrue] at h
    obtain rfl := Except.ok.inj h
    exact ⟨List.nodup_nil, by simp⟩
  · rw [ofDnf_singleton hterm] at h
    obtain ⟨rows, -, h⟩ := Outcome.bind_eq_ok.mp h
    obtain rfl := Except.ok.inj h
    exact ⟨List.nodup_nil, by simp⟩
  · rw [ofDnf_of_two_le hlen hne] at h
    obtain ⟨rows, -, h⟩ := Outcome.bind_eq_ok.mp h
    obtain rfl := Except.ok.inj h
    have hnames : ((selectorNames (toString position ++ ":" ++ rule) dnf.length).map
        fun s => (⟨s, .binary, 0, 1⟩ : DecisionVar K)).map (·.name) =
          selectorNames (toString position ++ ":" ++ rule) dnf.length := by
      rw [List.map_map]
      exact List.map_id _
    rw [hnames]
    exact ⟨List.nodup_range.map (selectorName_injective _),
      fun name => isTagged_of_mem_selectorNames⟩

end Encoding

namespace Program

variable {settings : Settings K}

/-- Encodings have different names, each with the number of its rule. -/
theorem names_encodings {vocabulary : Vocabulary K} {rules : List (Rule K)} {position : Nat}
    {parts : List (String × Encoding K)}
    (h : encodings vocabulary settings position rules = .ok parts) :
    ((parts.flatMap (·.2.vars)).map (·.name)).Nodup ∧
      ∀ name ∈ (parts.flatMap (·.2.vars)).map (·.name),
        ∃ i, position ≤ i ∧ IsTagged i name := by
  induction rules generalizing position parts with
  | nil =>
    obtain rfl := Except.ok.inj h
    exact ⟨List.nodup_nil, by simp⟩
  | cons r rules ih =>
    obtain ⟨d, -, h⟩ := Outcome.bind_eq_ok.mp h
    obtain ⟨e, he, h⟩ := Outcome.bind_eq_ok.mp h
    obtain ⟨rest, hrest, h⟩ := Outcome.bind_eq_ok.mp h
    obtain rfl := Except.ok.inj h
    obtain ⟨hnodup, htagged⟩ := ih hrest
    obtain ⟨hfirst, htag⟩ := Encoding.names_ofDnf he
    rw [List.flatMap_cons, List.map_append]
    constructor
    · refine List.nodup_append.mpr ⟨hfirst, hnodup, ?_⟩
      rintro name hname _ hother rfl
      obtain ⟨i, hi, hi'⟩ := htagged name hother
      -- later encodings have larger numbers
      have hposition := (htag name hname).position_unique hi'
      omega
    · intro name hname
      rcases List.mem_append.mp hname with hname | hname
      · exact ⟨position, le_rfl, htag name hname⟩
      · obtain ⟨i, hi, hi'⟩ := htagged name hname
        exact ⟨i, by omega, hi'⟩

end Program

/-! ### Names of a program -/

/-- Some clause of the rules mentions a label of a variable. -/
def Mentioned (rules : List (Rule K)) (v l : String) : Prop :=
  ∃ c ∈ rules.flatMap Rule.clauses, c.Mentions v l

/-- The indicators of different variables never run together in the same text. -/
def LabelsApart (rules : List (Rule K)) : Prop :=
  ∀ v l w m, Mentioned rules v l → Mentioned rules w m → v ++ "=" ++ l = w ++ "=" ++ m → v = w

namespace Usage

variable {u : Usage} {rules : List (Rule K)} (h : u.Covers (rules.flatMap Rule.clauses))

include h

/-- The names of the indicators of all variables. -/
theorem nodup_indicatorNames_iff :
    ((u.ofKind .categorical).flatMap fun v => (u.options v).map (indicatorName v)).Nodup ↔
      LabelsApart rules := by
  have hmentioned (v l : String) : some l ∈ u.options v ↔ Mentioned rules v l :=
    some_mem_options.trans (h.labels.mem_iff v l)
  have hcategorical {v l : String} (hm : Mentioned rules v l) : v ∈ u.ofKind .categorical :=
    h.mem_ofKind_of_mem_labelsOf (some_mem_options.mp ((hmentioned v l).mpr hm))
  rw [List.nodup_flatMap]
  constructor
  · rintro ⟨-, hpair⟩ v l w m hl hm heq
    by_contra hne
    have hsymm : Std.Symm (Function.onFun List.Disjoint
        fun v => (u.options v).map (indicatorName v)) := ⟨fun v w hvw => List.disjoint_symm hvw⟩
    have hdisjoint := hpair.forall (hcategorical hl) (hcategorical hm) hne
    refine hdisjoint (List.mem_map_of_mem ((hmentioned v l).mpr hl)) ?_
    rw [indicatorName_eq_iff.mpr (.inr ⟨l, m, rfl, rfl, heq⟩)]
    exact List.mem_map_of_mem ((hmentioned w m).mpr hm)
  · intro happart
    refine ⟨fun v _ => (h.nodup_options v).map fun l m hlm => ?_, ?_⟩
    · rcases indicatorName_eq_iff.mp hlm with ⟨rfl, rfl, -⟩ | ⟨a, b, rfl, rfl, hab⟩
      · rfl
      · exact congrArg some ((String.append_right_inj _).mp hab)
    -- labels of different variables only meet in one text, which the hypothesis rules out
    · refine (h.nodup_ofKind .categorical).imp fun {v w} hne => ?_
      intro name hv hw
      obtain ⟨l, hl, rfl⟩ := List.mem_map.mp hv
      obtain ⟨m, hm, hml⟩ := List.mem_map.mp hw
      rcases indicatorName_eq_iff.mp hml with ⟨-, -, rfl⟩ | ⟨a, b, rfl, rfl, hab⟩
      · exact hne rfl
      · exact hne (happart v b w a ((hmentioned v b).mp hl) ((hmentioned w a).mp hm) hab.symm)

/-- The names of the decision variables of the rules' variables. -/
theorem names_vocabulary {settings : Settings K} :
    ((u.vocabulary settings).vars.map (·.name)) =
      (u.ofKind .numeric).map numericName ++
        (u.ofKind .categorical).flatMap fun v => (u.options v).map (indicatorName v) := by
  rw [h.vars_eq, List.map_append, List.map_map, List.map_flatMap]
  simp only [List.map_map]
  rfl

end Usage

namespace Program

variable {rules : List (Rule K)} {settings : Settings K} {p : Program K}

/-- The indicators of a program have different names only if labels stay apart. -/
theorem labelsApart_of_nodup_names (hp : Program.ofRules rules settings = .ok p)
    (h : (p.vars.map (·.name)).Nodup) : LabelsApart rules := by
  obtain ⟨u, parts, hu, hparts, rfl⟩ := Program.ofRules_eq_ok.mp hp
  have hcovers := (Usage.covers_ofRules hu).1
  rw [Program.assemble, List.map_append, Usage.names_vocabulary hcovers] at h
  exact (Usage.nodup_indicatorNames_iff hcovers).mp
    (List.nodup_append.mp (List.nodup_append.mp h).1).2.1

/-- When labels stay apart, so do the names of numbers, indicators, selectors and markers. -/
theorem nodup_names_of_labelsApart (hp : Program.ofRules rules settings = .ok p)
    (h : LabelsApart rules) : (p.vars.map (·.name)).Nodup := by
  obtain ⟨u, parts, hu, hparts, rfl⟩ := Program.ofRules_eq_ok.mp hp
  have hcovers := (Usage.covers_ofRules hu).1
  obtain ⟨hencodings, htagged⟩ := Program.names_encodings hparts
  have hindicators := (Usage.nodup_indicatorNames_iff hcovers).mpr h
  rw [Program.assemble, List.map_append, Usage.names_vocabulary hcovers]
  refine List.nodup_append.mpr ⟨List.nodup_append.mpr ⟨?_, hindicators, ?_⟩, hencodings, ?_⟩
  · exact (hcovers.nodup_ofKind .numeric).map numericName_injective
  · rintro _ hn _ hi rfl
    obtain ⟨v, -, rfl⟩ := List.mem_map.mp hn
    obtain ⟨w, -, hw⟩ := List.mem_flatMap.mp hi
    obtain ⟨l, -, hl⟩ := List.mem_map.mp hw
    have hhead := head?_numericName v
    rw [← hl, head?_indicatorName] at hhead
    cases hhead
  · rintro name hname _ ht rfl
    obtain ⟨i, -, htag⟩ := htagged name ht
    rcases List.mem_append.mp hname with hn | hi
    · obtain ⟨v, -, rfl⟩ := List.mem_map.mp hn
      rcases htag.head? with hhead | hhead <;> rw [head?_numericName] at hhead <;> cases hhead
    · obtain ⟨w, -, hw⟩ := List.mem_flatMap.mp hi
      obtain ⟨l, -, rfl⟩ := List.mem_map.mp hw
      rcases htag.head? with hhead | hhead <;> rw [head?_indicatorName] at hhead <;> cases hhead

end Program

/-- **The names of a program differ exactly when labels stay apart.** A program has two decision
variables of one name only if two labels of different variables run together with the names of these
variables in the same text. -/
theorem Program.nodup_names_iff {rules : List (Rule K)} {settings : Settings K} {p : Program K}
    (hp : Program.ofRules rules settings = .ok p) :
    (p.vars.map (·.name)).Nodup ↔ LabelsApart rules :=
  ⟨Program.labelsApart_of_nodup_names hp, Program.nodup_names_of_labelsApart hp⟩

/-- Two categorical variables, with two labels and with one. -/
theorem Program.nodup_names_iff_two_variables :
    let color : Rule Rat := ⟨"color", .atom (.membership (.ofLabels ⟨"color", by decide⟩
      ["red", "blue"] false)), none, by decide +kernel, by simp, none⟩
    let size : Rule Rat := ⟨"size", .atom (.membership (.ofLabels ⟨"size", by decide⟩
      ["big"] true)), none, by decide +kernel, by simp, none⟩
    ∃ settings p, Settings.default = .ok settings ∧
      Program.ofRules [color, size] settings = .ok p ∧
      ((p.vars.map (·.name)).Nodup ↔ LabelsApart [color, size]) := by
  intro color size
  have hsome : (Settings.default (K := Rat) >>= fun settings =>
      Program.ofRules [color, size] settings).toOption.any (fun _ => true) = true := by
    decide +kernel
  obtain ⟨p, hp, -⟩ := Outcome.exists_of_any_toOption hsome
  obtain ⟨settings, hsettings, hp⟩ := Outcome.bind_eq_ok.mp hp
  exact ⟨settings, p, hsettings, hp, Program.nodup_names_iff hp⟩

/-- The label `c` of `a=b` and the label `b=c` of `a` run together, and the two indicators have one
name. -/
theorem Program.names_clash :
    let r : Rule Rat := ⟨"r1", .atom (.membership (.ofLabels ⟨"a=b", by decide⟩
      ["c"] false)), none, by decide +kernel, by simp, none⟩
    let s : Rule Rat := ⟨"r2", .atom (.membership (.ofLabels ⟨"a", by decide⟩
      ["b=c"] true)), none, by decide +kernel, by simp, none⟩
    ∃ settings p, Settings.default = .ok settings ∧ Program.ofRules [r, s] settings = .ok p ∧
      ¬ (p.vars.map (·.name)).Nodup := by
  intro r s
  have hsome : (Settings.default (K := Rat) >>= fun settings =>
      Program.ofRules [r, s] settings).toOption.any
        (fun p => decide (¬ (p.vars.map (·.name)).Nodup)) = true := by
    decide +kernel
  obtain ⟨p, hp, hclash⟩ := Outcome.exists_of_any_toOption hsome
  obtain ⟨settings, hsettings, hp⟩ := Outcome.bind_eq_ok.mp hp
  exact ⟨settings, p, hsettings, hp, of_decide_eq_true hclash⟩

end RuleAudit
