import BranchStream.Binary32.Instances
import BranchStream.Rewriting.Definition
import Mathlib

namespace BranchStream

theorem length_eq_one_iff {key : String} : key.length = 1 ↔ ∃ c, key = String.singleton c := by
  rw [← String.length_toList, List.length_eq_one_iff]
  simp only [← String.toList_inj, String.toList_singleton]

variable {α : Type}

theorem ruleSymbol_singleton (c : Symbol) :
    ruleSymbol (String.singleton c) = (.ok c : Except (Fault α) Symbol) := by
  rw [ruleSymbol, String.toList_singleton]

theorem ruleSymbol_of_wide {key : String} (h : key.length ≠ 1) :
    ruleSymbol key = (.error (.wideRuleKey key) : Except (Fault α) Symbol) := by
  rw [← String.length_toList] at h
  rw [ruleSymbol]
  split
  · rename_i c hc
    rw [hc] at h
    exact absurd rfl h
  · rfl

theorem symbolRules_of_wide {before after : List (String × String)} {key production : String}
    (hbefore : ∀ e ∈ before, e.1.length = 1) (hkey : key.length ≠ 1) (rules : Rules) :
    symbolRules (before ++ (key, production) :: after) rules =
      (.error (.wideRuleKey key) : Except (Fault α) Rules) := by
  induction before generalizing rules with
  | nil =>
    rw [List.nil_append, symbolRules, ruleSymbol_of_wide hkey]
    rfl
  | cons e before ih =>
    obtain ⟨he, hbefore⟩ := List.forall_mem_cons.mp hbefore
    obtain ⟨c, hc⟩ := length_eq_one_iff.mp he
    rw [List.cons_append, symbolRules, hc, ruleSymbol_singleton]
    exact ih hbefore _

theorem symbolRules_of_narrow {entries : List (String × String)}
    (hnarrow : ∀ e ∈ entries, e.1.length = 1) (hdistinct : entries.Pairwise fun a b ↦ a.1 ≠ b.1)
    (rules : Rules) :
    ∃ rules', symbolRules entries rules = (.ok rules' : Except (Fault α) Rules) ∧
      ∀ c (p : String), rules'[c]? = some p.toList ↔ (String.singleton c, p) ∈ entries ∨
        (∀ q, (String.singleton c, q) ∉ entries) ∧ rules[c]? = some p.toList := by
  induction entries generalizing rules with
  | nil => exact ⟨rules, rfl, by simp⟩
  | cons e entries ih =>
    obtain ⟨key, production⟩ := e
    obtain ⟨hkey, hrest⟩ := List.forall_mem_cons.mp hnarrow
    obtain ⟨hfresh, hrest'⟩ := List.pairwise_cons.mp hdistinct
    obtain ⟨c₀, rfl⟩ := length_eq_one_iff.mp hkey
    obtain ⟨rules', hrules', hall⟩ := ih hrest hrest' (rules.insert c₀ production.toList)
    refine ⟨rules', ?_, fun c p ↦ ?_⟩
    · rw [symbolRules, ruleSymbol_singleton]
      exact hrules'
    · have hsingleton : String.singleton c = String.singleton c₀ ↔ c₀ = c := by
        rw [← String.toList_inj, String.toList_singleton, String.toList_singleton,
          List.singleton_inj, eq_comm]
      simp only [hall, Std.ExtTreeMap.getElem?_insert, compare_eq_iff_eq]
      by_cases hc : c₀ = c
      · subst hc
        have hno : ∀ q, (String.singleton c₀, q) ∉ entries := fun q hq ↦ hfresh _ hq rfl
        simp [hno, String.toList_inj, eq_comm]
      · simp [hc, hsingleton]

variable [Scalar α]

theorem requireFinite_eq_error {before after : List (String × α)} {name : String} {x : α}
    (hbefore : ∀ q ∈ before, Scalar.isFinite q.2 = true) (hx : Scalar.isFinite x = false) :
    requireFinite (before ++ (name, x) :: after) = .error (.notFinite name) := by
  induction before with
  | nil =>
    rw [List.nil_append, requireFinite, hx]
    rfl
  | cons q before ih =>
    obtain ⟨hq, hbefore⟩ := List.forall_mem_cons.mp hbefore
    rw [List.cons_append, requireFinite, if_pos hq, ih hbefore]

/-- The parameters with the names that faults give them, in the order in which they are checked. -/
def Parameters.named (p : Parameters α) : List (String × α) :=
  [("angleGrowth", p.angleGrowth), ("sizeGrowth", p.sizeGrowth), ("stepAngle", p.stepAngle),
    ("stepSize", p.stepSize)]

namespace Definition

structure WellFormed (d : Definition α) : Prop where
  finite : ∀ q ∈ d.parameters.named, Scalar.isFinite q.2 = true
  narrow : ∀ key ∈ d.rules, key.length = 1
  start : d.start ≠ ""

/-- Why a definition is refused: for the first parameter that is not finite, else for the least key
that is not one symbol, else because its start is empty. -/
inductive Refused (d : Definition α) : Fault α → Prop
  | parameter {before after : List (String × α)} {name : String} {x : α}
      (split : d.parameters.named = before ++ (name, x) :: after)
      (finite : ∀ q ∈ before, Scalar.isFinite q.2 = true) (special : Scalar.isFinite x = false) :
      Refused d (.notFinite name)
  | key {key : String} (finite : ∀ q ∈ d.parameters.named, Scalar.isFinite q.2 = true)
      (mem : key ∈ d.rules) (wide : key.length ≠ 1)
      (least : ∀ other ∈ d.rules, other.length ≠ 1 → key ≤ other) : Refused d (.wideRuleKey key)
  | start (finite : ∀ q ∈ d.parameters.named, Scalar.isFinite q.2 = true)
      (narrow : ∀ key ∈ d.rules, key.length = 1) (empty : d.start = "") : Refused d .emptyStart

structure Kept (d : Definition α) (l : Loaded α) : Prop where
  start : l.grammar.start = d.start.toList
  rule : ∀ c (p : String),
    l.grammar.rule? c = some p.toList ↔ d.rules[String.singleton c]? = some p
  parameters : l.parameters = d.parameters
  iterations : l.iterations = d.iterations

variable {d : Definition α} {fault : Fault α}

omit [Scalar α] in
theorem mem_rules_iff {key : String} : key ∈ d.rules ↔ ∃ p, (key, p) ∈ d.rules.toList := by
  rw [Std.ExtTreeMap.mem_iff_isSome_getElem?, Option.isSome_iff_exists]
  simp only [Std.ExtTreeMap.mem_toList_iff_getElem?_eq_some]

omit [Scalar α] in
theorem exists_symbolRules (hnarrow : ∀ key ∈ d.rules, key.length = 1) :
    ∃ rules, symbolRules d.rules.toList ∅ = (.ok rules : Except (Fault α) Rules) ∧
      ∀ c (p : String), rules[c]? = some p.toList ↔ d.rules[String.singleton c]? = some p := by
  have hkeys : ∀ e ∈ d.rules.toList, e.1.length = 1 := fun e he ↦
    hnarrow e.1 (mem_rules_iff.mpr ⟨e.2, he⟩)
  have hdistinct : d.rules.toList.Pairwise fun a b ↦ a.1 ≠ b.1 :=
    Std.ExtTreeMap.distinct_keys_toList.imp fun h heq ↦ h (compare_eq_iff_eq.mpr heq)
  obtain ⟨rules, hrules, hall⟩ := symbolRules_of_narrow hkeys hdistinct ∅
  refine ⟨rules, hrules, fun c p ↦ ?_⟩
  rw [hall, Std.ExtTreeMap.mem_toList_iff_getElem?_eq_some]
  simp

theorem load_eq (d : Definition α) : d.load = (requireFinite d.parameters.named >>= fun _ ↦
    symbolRules d.rules.toList ∅ >>= fun rules ↦
      Grammar.ofStart d.start.toList rules >>= fun grammar ↦
        .ok ⟨grammar, d.parameters, d.iterations⟩) := rfl

theorem load_of_rules {rules : Rules} (h : ∀ q ∈ d.parameters.named, Scalar.isFinite q.2 = true)
    (hrules : symbolRules d.rules.toList ∅ = (.ok rules : Except (Fault α) Rules)) :
    d.load = (Grammar.ofStart d.start.toList rules).map fun grammar ↦
      ⟨grammar, d.parameters, d.iterations⟩ := by
  rw [load_eq, requireFinite_eq_ok_iff.mpr h, hrules]
  rfl

theorem load_of_wellFormed (h : d.WellFormed) : ∃ l, d.load = .ok l ∧ d.Kept l := by
  obtain ⟨rules, hrules, hall⟩ := exists_symbolRules (α := α) h.narrow
  have hstart : d.start.toList ≠ [] := fun heq ↦ h.start (String.toList_eq_nil_iff.mp heq)
  have hgrammar : Grammar.ofStart d.start.toList rules =
      (.ok ⟨d.start.toList, rules, hstart⟩ : Except (Fault α) Grammar) := dif_neg hstart
  refine ⟨⟨⟨d.start.toList, rules, hstart⟩, d.parameters, d.iterations⟩, ?_, rfl, hall, rfl, rfl⟩
  rw [load_of_rules h.finite hrules, hgrammar]
  rfl

omit [Scalar α] in
theorem exists_split_of_least {key : String} (hmem : key ∈ d.rules)
    (hleast : ∀ other ∈ d.rules, other.length ≠ 1 → key ≤ other) :
    ∃ before p after, d.rules.toList = before ++ (key, p) :: after ∧
      ∀ e ∈ before, e.1.length = 1 := by
  obtain ⟨p, hp⟩ := mem_rules_iff.mp hmem
  obtain ⟨before, after, hsplit⟩ := List.append_of_mem hp
  refine ⟨before, p, after, hsplit, fun e he ↦ ?_⟩
  by_contra hwide
  have hsorted : d.rules.toList.Pairwise fun a b ↦ compare a.1 b.1 = .lt :=
    Std.ExtTreeMap.ordered_keys_toList
  rw [hsplit, List.pairwise_append] at hsorted
  have hlt : e.1 < key := compare_lt_iff_lt.mp (hsorted.2.2 e he _ List.mem_cons_self)
  have hother : e.1 ∈ d.rules := by
    rw [mem_rules_iff, hsplit]
    exact ⟨e.2, List.mem_append_left _ he⟩
  exact absurd (hleast e.1 hother hwide) (not_le.mpr hlt)

theorem load_of_refused (h : d.Refused fault) : d.load = .error fault := by
  cases h with
  | parameter split finite special =>
    rw [load_eq, split, requireFinite_eq_error finite special]
    rfl
  | key finite mem wide least =>
    obtain ⟨before, p, after, hsplit, hbefore⟩ := exists_split_of_least mem least
    rw [load_eq, requireFinite_eq_ok_iff.mpr finite, hsplit, symbolRules_of_wide hbefore wide]
    rfl
  | start finite narrow empty =>
    obtain ⟨rules, hrules, -⟩ := exists_symbolRules (α := α) narrow
    have hgrammar : Grammar.ofStart d.start.toList rules =
        (.error .emptyStart : Except (Fault α) Grammar) :=
      dif_pos (String.toList_eq_nil_iff.mpr empty)
    rw [load_of_rules finite hrules, hgrammar]
    rfl

theorem wellFormed_or_refused (d : Definition α) : d.WellFormed ∨ ∃ fault, d.Refused fault := by
  cases hfind : d.parameters.named.find? fun q ↦ !Scalar.isFinite q.2 with
  | some q =>
    obtain ⟨hq, before, after, hsplit, hbefore⟩ := List.find?_eq_some_iff_append.mp hfind
    refine .inr ⟨_, .parameter hsplit (fun q' hq' ↦ ?_) ((Bool.not_eq_true' _).mp hq)⟩
    simpa using hbefore q' hq'
  | none =>
    have hfinite : ∀ q ∈ d.parameters.named, Scalar.isFinite q.2 = true := by
      simpa using hfind
    by_cases hnarrow : ∀ key ∈ d.rules, key.length = 1
    · by_cases hstart : d.start = ""
      · exact .inr ⟨_, .start hfinite hnarrow hstart⟩
      · exact .inl ⟨hfinite, hnarrow, hstart⟩
    · push Not at hnarrow
      obtain ⟨wide, hmem, hwide⟩ := hnarrow
      obtain ⟨key, hkey, hleast⟩ := Finset.exists_min_image
        (d.rules.keys.toFinset.filter fun key ↦ key.length ≠ 1) id ⟨wide, by simpa using ⟨hmem, hwide⟩⟩
      simp only [Finset.mem_filter, List.mem_toFinset, Std.ExtTreeMap.mem_keys, id] at hkey hleast
      exact .inr ⟨_, .key hfinite hkey.1 hkey.2 fun other hother h ↦ hleast other ⟨hother, h⟩⟩

theorem wellFormed_of_load {l : Loaded α} (h : d.load = .ok l) : d.WellFormed ∧ d.Kept l := by
  rcases d.wellFormed_or_refused with hd | ⟨fault, hd⟩
  · obtain ⟨l', hl', hkept⟩ := load_of_wellFormed hd
    obtain rfl : l' = l := Except.ok.inj (hl'.symm.trans h)
    exact ⟨hd, hkept⟩
  · rw [load_of_refused hd] at h
    cases h

theorem load_eq_error_iff : d.load = .error fault ↔ d.Refused fault := by
  refine ⟨fun h ↦ ?_, load_of_refused⟩
  rcases d.wellFormed_or_refused with hd | ⟨fault', hd⟩
  · obtain ⟨l, hl, -⟩ := load_of_wellFormed hd
    rw [hl] at h
    cases h
  · obtain rfl : fault' = fault := Except.error.inj ((load_of_refused hd).symm.trans h)
    exact hd

/-- Loading accepts exactly the well-formed definitions and keeps all that they say; any other
definition is refused for the first of its faults. What is refused is replaced by the default as a
whole, as is what is missing. -/
theorem load_faithful (d : Definition α) :
    ((∃ l, d.load = .ok l) ↔ d.WellFormed) ∧
      (∀ l, d.load = .ok l → d.Kept l ∧ loadOrDefault (some d) = l) ∧
      (∀ fault, d.load = .error fault ↔ d.Refused fault) ∧
      (∀ fault, d.load = .error fault → loadOrDefault (some d) = loadOrDefault none) ∧
      loadOrDefault none = (⟨⟨['L'], ∅, List.cons_ne_nil _ _⟩, ⟨0, 0, 0, 0⟩, 0⟩ : Loaded α) := by
  refine ⟨⟨?_, ?_⟩, ?_, fun fault ↦ load_eq_error_iff, ?_, rfl⟩
  · rintro ⟨l, hl⟩
    exact (wellFormed_of_load hl).1
  · intro h
    obtain ⟨l, hl, -⟩ := load_of_wellFormed h
    exact ⟨l, hl⟩
  · intro l hl
    exact ⟨(wellFormed_of_load hl).2, by rw [loadOrDefault, hl]⟩
  · intro fault h
    rw [loadOrDefault, loadOrDefault, h]

theorem load_faithful_of_empty_key :
    let rules : Std.ExtTreeMap String String := .ofList [("é", "éF"), ("F", "")]
    let kept : Definition Float32 := ⟨"Fé", rules, 3, ⟨0, 0, 90, 10⟩⟩
    let refused : Definition Float32 :=
      ⟨"", (rules.insert "ab" "").insert "" "F", 3, ⟨0, 0, 90, 10⟩⟩
    (∃ l, kept.load = .ok l ∧ l.grammar.rule? 'é' = some ['é', 'F'] ∧ l.iterations = 3) ∧
      refused.load = .error (.wideRuleKey "") ∧ loadOrDefault (some refused) = default := by
  intro rules kept refused
  have hfinite : ∀ q ∈ kept.parameters.named, Scalar.isFinite q.2 = true := by decide +kernel
  have hnarrow : ∀ key ∈ kept.rules, key.length = 1 := by
    have hall : ∀ e ∈ rules.toList, e.1.length = 1 := by decide +kernel
    intro key hkey
    obtain ⟨p, hp⟩ := mem_rules_iff.mp hkey
    exact hall _ hp
  have hleast : ∀ key ∈ refused.rules, key.length ≠ 1 → "" ≤ key := by
    have hall : ∀ e ∈ refused.rules.toList, "" ≤ e.1 := by decide +kernel
    intro key hkey _
    obtain ⟨p, hp⟩ := mem_rules_iff.mp hkey
    exact hall _ hp
  have hrule : rules[String.singleton 'é']? = some "éF" := by decide +kernel
  obtain ⟨hiff, hok, -⟩ := load_faithful kept
  obtain ⟨-, -, herror, hdefault, -⟩ := load_faithful refused
  obtain ⟨l, hl⟩ := hiff.mpr ⟨hfinite, hnarrow, by decide⟩
  have hkept := (hok l hl).1
  have hrefused := (herror _).mpr (.key hfinite (by decide +kernel) (by decide) hleast)
  exact ⟨⟨l, hl, (hkept.rule 'é' "éF").mpr hrule, hkept.iterations⟩, hrefused,
    hdefault _ hrefused⟩

end Definition

end BranchStream
