import LoomDB.Foundations.OrderedMap
import LoomDB.Policy.Engine

/-!
# What the index of rules means

The engine files the rules by action and decides in two passes. What it decides is what the plain
list of rules means: a request is allowed if a rule that applies to it allows it and none that
applies denies it. The meaning looks at which rules there are and not at their order.
-/

namespace LoomDB

namespace Policy

/-- Some rule allows the request, and none denies it. -/
def PolicySet.Permits (set : PolicySet) (req : Request) : Prop :=
  (∃ rule ∈ set.rules, rule.appliesTo req = true ∧ rule.effect = .allow) ∧
    ∀ rule ∈ set.rules, rule.appliesTo req = true → rule.effect ≠ .deny

namespace Engine

/-- The engine has exactly these rules, each in its bucket. -/
structure Compiles (engine : Engine) (rules : List PolicyRule) : Prop where
  byAction : ∀ action rule, rule ∈ (engine.byAction[action]?).getD [] ↔
    rule ∈ rules ∧ rule.action = .is action
  anyAction : ∀ rule, rule ∈ engine.anyAction ↔ rule ∈ rules ∧ rule.action = .any

theorem Compiles.addRule {engine : Engine} {rules : List PolicyRule} (hcompiles : Compiles engine rules)
    (rule : PolicyRule) : Compiles (engine.addRule rule) (rules ++ [rule]) := by
  unfold Engine.addRule
  cases haction : rule.action with
  | is action =>
      constructor
      · intro other found
        simp only [OrderedMap.getElem?_insert, List.mem_append, List.mem_singleton]
        split
        next hsame =>
          subst hsame
          rw [Option.getD_some, List.mem_append, List.mem_singleton, hcompiles.byAction]
          constructor
          · rintro (⟨hfound, hother⟩ | rfl)
            · exact ⟨Or.inl hfound, hother⟩
            · exact ⟨Or.inr rfl, haction⟩
          · rintro ⟨hfound | rfl, hother⟩
            · exact Or.inl ⟨hfound, hother⟩
            · exact Or.inr rfl
        next hdiffers =>
          rw [hcompiles.byAction]
          constructor
          · exact fun ⟨hfound, hother⟩ => ⟨Or.inl hfound, hother⟩
          · rintro ⟨hfound | rfl, hother⟩
            · exact ⟨hfound, hother⟩
            · exact absurd (Match.is.inj (haction.symm.trans hother)) hdiffers
      · intro found
        simp only [List.mem_append, List.mem_singleton]
        rw [hcompiles.anyAction]
        constructor
        · exact fun ⟨hfound, hany⟩ => ⟨Or.inl hfound, hany⟩
        · rintro ⟨hfound | rfl, hany⟩
          · exact ⟨hfound, hany⟩
          · rw [haction] at hany
            cases hany
  | any =>
      constructor
      · intro other found
        simp only [List.mem_append, List.mem_singleton]
        rw [hcompiles.byAction]
        constructor
        · exact fun ⟨hfound, hother⟩ => ⟨Or.inl hfound, hother⟩
        · rintro ⟨hfound | rfl, hother⟩
          · exact ⟨hfound, hother⟩
          · rw [haction] at hother
            cases hother
      · intro found
        simp only [List.mem_append, List.mem_singleton]
        rw [hcompiles.anyAction]
        constructor
        · rintro (⟨hfound, hany⟩ | rfl)
          · exact ⟨Or.inl hfound, hany⟩
          · exact ⟨Or.inr rfl, haction⟩
        · rintro ⟨hfound | rfl, hany⟩
          · exact Or.inl ⟨hfound, hany⟩
          · exact Or.inr rfl

theorem Compiles.foldl {engine : Engine} {filed rules : List PolicyRule}
    (hcompiles : Compiles engine filed) : Compiles (rules.foldl Engine.addRule engine) (filed ++ rules) := by
  induction rules generalizing engine filed with
  | nil => rwa [List.append_nil]
  | cons rule rules ih =>
      have hnext := ih (hcompiles.addRule rule)
      rwa [List.append_assoc, List.singleton_append] at hnext

theorem compiles_new (set : PolicySet) : Compiles (new set) set.rules := by
  have hempty : Compiles { version := set.version, byAction := ∅, anyAction := [] } [] := by
    constructor <;> simp
  exact hempty.foldl

/-- The rules looked at are those that apply, wherever they were filed. -/
theorem mem_applicable {set : PolicySet} {req : Request} {rule : PolicyRule} :
    rule ∈ (new set).applicable req ↔ rule ∈ set.rules ∧ rule.appliesTo req = true := by
  have hcompiles := compiles_new set
  unfold applicable
  rw [List.mem_filter, List.mem_append, hcompiles.byAction, hcompiles.anyAction]
  constructor
  · rintro ⟨⟨hrule, -⟩ | ⟨hrule, -⟩, happlies⟩
    · exact ⟨hrule, happlies⟩
    · exact ⟨hrule, happlies⟩
  · rintro ⟨hrule, happlies⟩
    refine ⟨?_, happlies⟩
    have haction : rule.action.accepts req.action = true := by
      simp only [PolicyRule.appliesTo, Bool.and_eq_true] at happlies
      exact happlies.2
    cases hmatch : rule.action with
    | is action =>
        rw [hmatch] at haction
        obtain rfl : action = req.action := of_decide_eq_true haction
        exact Or.inl ⟨hrule, rfl⟩
    | any => exact Or.inr ⟨hrule, rfl⟩

variable {platform : Platform}

theorem decide_eq_allow_iff {engine : Engine} {req : Request} :
    (engine.decide platform req).decision = .allow ↔
      (∃ rule ∈ engine.applicable req, rule.effect = .allow) ∧
        ∀ rule ∈ engine.applicable req, rule.effect ≠ .deny := by
  unfold decide
  cases hdeny : (engine.applicable req).find? fun rule => rule.effect = .deny with
  | some rule =>
      have hrule : rule.effect = .deny := by
        simpa using List.find?_some hdeny
      refine iff_of_false nofun fun ⟨_, hnone⟩ => ?_
      exact hnone rule (List.mem_of_find?_eq_some hdeny) hrule
  | none =>
      have hnone : ∀ rule ∈ engine.applicable req, rule.effect ≠ .deny := by
        simpa [List.find?_eq_none] using hdeny
      have hany : ((engine.applicable req).any fun rule => rule.effect = .allow) = true ↔
          ∃ rule ∈ engine.applicable req, rule.effect = .allow := by
        simp [List.any_eq_true]
      by_cases hallow : ((engine.applicable req).any fun rule => rule.effect = .allow) = true
      · simp only [if_pos hallow]
        exact iff_of_true rfl ⟨hany.mp hallow, hnone⟩
      · simp only [if_neg hallow]
        exact iff_of_false nofun fun ⟨hexists, _⟩ => hallow (hany.mpr hexists)

theorem decide_new_eq_allow_iff {set : PolicySet} {req : Request} :
    ((new set).decide platform req).decision = .allow ↔ set.Permits req := by
  rw [decide_eq_allow_iff]
  simp only [mem_applicable, and_assoc, and_imp]
  rfl

/-- A decision that is no allow is a denial. -/
theorem Decision.eq_iff {decision other : Decision} :
    decision = other ↔ (decision = .allow ↔ other = .allow) := by
  cases decision <;> cases other <;> simp

end Engine

namespace PolicySet

variable {set other : PolicySet} {req : Request}

theorem Permits.congr (hrules : ∀ rule, rule ∈ other.rules ↔ rule ∈ set.rules) :
    other.Permits req ↔ set.Permits req := by
  simp only [Permits, hrules]

/-- A set that permits has the allows of a smaller one and no more denies. -/
theorem Permits.mono (hpermits : other.Permits req)
    (hallows : ∀ rule ∈ other.rules, rule.effect = .allow → rule ∈ set.rules)
    (hdenies : ∀ rule ∈ set.rules, rule.effect = .deny → rule ∈ other.rules) :
    set.Permits req := by
  obtain ⟨⟨rule, hrule, happlies, hallow⟩, hnone⟩ := hpermits
  refine ⟨⟨rule, hallows rule hrule hallow, happlies, hallow⟩, fun denying hmem happly hdeny => ?_⟩
  exact hnone denying (hdenies denying hmem hdeny) happly hdeny

end PolicySet

/-- The engine decides what the list of rules means; so neither the order nor the number of times
a rule is there matters, and neither a further deny nor a missing allow opens anything. -/
theorem Engine.decide_denyOverrides (platform : Platform) (set : PolicySet) (req : Request) :
    (((Engine.new set).decide platform req).decision = .allow ↔ set.Permits req) ∧
    (∀ other : PolicySet, (∀ rule, rule ∈ other.rules ↔ rule ∈ set.rules) →
      ((Engine.new other).decide platform req).decision =
        ((Engine.new set).decide platform req).decision) ∧
    (∀ before after rule, set.rules = before ++ after → rule.effect = .deny →
      ((Engine.new { set with rules := before ++ rule :: after }).decide platform req).decision =
          .allow →
        ((Engine.new set).decide platform req).decision = .allow) ∧
    ∀ before after rule, set.rules = before ++ rule :: after → rule.effect = .allow →
      ((Engine.new { set with rules := before ++ after }).decide platform req).decision = .allow →
        ((Engine.new set).decide platform req).decision = .allow := by
  refine ⟨Engine.decide_new_eq_allow_iff, fun other hrules => ?_, ?_, ?_⟩
  · rw [Engine.Decision.eq_iff, Engine.decide_new_eq_allow_iff, Engine.decide_new_eq_allow_iff]
    exact PolicySet.Permits.congr hrules
  · intro before after rule hset hdeny hallowed
    rw [Engine.decide_new_eq_allow_iff] at hallowed ⊢
    refine hallowed.mono (fun found hfound hallow => ?_) fun found hfound _ => ?_
    · rw [hset]
      rcases List.mem_append.mp hfound with hfound | hfound
      · exact List.mem_append_left _ hfound
      · rcases List.mem_cons.mp hfound with rfl | hfound
        · rw [hdeny] at hallow
          cases hallow
        · exact List.mem_append_right _ hfound
    · rw [hset] at hfound
      rcases List.mem_append.mp hfound with hfound | hfound
      · exact List.mem_append_left _ hfound
      · exact List.mem_append_right _ (List.mem_cons_of_mem _ hfound)
  · intro before after rule hset hallow hallowed
    rw [Engine.decide_new_eq_allow_iff] at hallowed ⊢
    refine hallowed.mono (fun found hfound _ => ?_) fun found hfound hdeny => ?_
    · rw [hset]
      rcases List.mem_append.mp hfound with hfound | hfound
      · exact List.mem_append_left _ hfound
      · exact List.mem_append_right _ (List.mem_cons_of_mem _ hfound)
    · rw [hset] at hfound
      rcases List.mem_append.mp hfound with hfound | hfound
      · exact List.mem_append_left _ hfound
      · rcases List.mem_cons.mp hfound with rfl | hfound
        · rw [hallow] at hdeny
          cases hdeny
        · exact List.mem_append_right _ hfound

/-- A rule for one actor allows the request; a denial of anyone's other purpose does not touch it. -/
example :
    ((Engine.new
      { version := ascii "1"
        rules :=
          [{ actor := .is (ascii "a"), label := .any, purpose := .any, action := .is (ascii "read")
             effect := .allow },
            { actor := .any, label := .any, purpose := .is (ascii "p"), action := .any
              effect := .deny }] }).decide Platform.plain
      { actor := ascii "a", label := .human, purpose := ascii "q"
        action := ascii "read" }).decision = .allow := by
  decide +kernel

end Policy

end LoomDB
