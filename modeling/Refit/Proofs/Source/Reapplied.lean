import Mathlib.Logic.Function.Iterate
import Refit.Proofs.Text.Replaced
import Refit.Strategy

namespace Refit.Source

open Text

variable {rule other : Rule} {rules : List Rule} {cs : List Char} {f : Char → Bool}

namespace Rule

/-- The pattern stands somewhere in a text. -/
def Occurs (rule : Rule) (cs : List Char) : Prop := rule.pattern.toList <:+: cs

instance (rule : Rule) (cs : List Char) : Decidable (rule.Occurs cs) :=
  decidable_of_iff _ occurs_iff

def Shrinks (f : Char → Bool) (rule : Rule) : Prop :=
  rule.replacement.toList.countP f < rule.pattern.toList.countP f

theorem Shrinks.ne_nil (h : rule.Shrinks f) : rule.pattern.toList ≠ [] := by
  intro hnil
  rw [Shrinks, hnil] at h
  exact Nat.not_lt_zero _ h

theorem apply_of_not_occurs (h : rule.Shrinks f) (hno : ¬ rule.Occurs cs) : rule.apply cs = cs :=
  replaceAll_of_absent h.ne_nil hno

theorem occurs_of_apply (hrule : rule.pattern.toList ≠ []) (hother : other.pattern.toList ≠ [])
    (h : Apart rule.replacement.toList other.pattern.toList) (ho : other.Occurs (rule.apply cs)) :
    other.Occurs cs :=
  infix_of_replaceAll hrule hother h ho

theorem not_occurs_apply (hrule : rule.pattern.toList ≠ [])
    (h : Apart rule.replacement.toList rule.pattern.toList) : ¬ rule.Occurs (rule.apply cs) :=
  not_infix_replaceAll hrule h

theorem countP_apply_lt (h : rule.Shrinks f) (ho : rule.Occurs cs) :
    (rule.apply cs).countP f < cs.countP f :=
  countP_replaceAll_lt h.ne_nil h ho

end Rule

theorem applyRules_cons (rule : Rule) (rules : List Rule) (cs : List Char) :
    applyRules (rule :: rules) cs = applyRules rules (rule.apply cs) := rfl

theorem applyRules_of_not_occurs (h : ∀ rule ∈ rules, rule.Shrinks f)
    (hnone : ∀ rule ∈ rules, ¬ rule.Occurs cs) : applyRules rules cs = cs := by
  induction rules with
  | nil => rfl
  | cons rule rules ih =>
    obtain ⟨hrule, hrules⟩ := List.forall_mem_cons.mp h
    obtain ⟨hno, hrest⟩ := List.forall_mem_cons.mp hnone
    rw [applyRules_cons, Rule.apply_of_not_occurs hrule hno]
    exact ih hrules hrest

theorem applyRules_cases (h : ∀ rule ∈ rules, rule.Shrinks f) (cs : List Char) :
    (∀ rule ∈ rules, ¬ rule.Occurs cs) ∨ (applyRules rules cs).countP f < cs.countP f := by
  induction rules generalizing cs with
  | nil => exact .inl nofun
  | cons rule rules ih =>
    obtain ⟨hrule, hrules⟩ := List.forall_mem_cons.mp h
    rw [applyRules_cons]
    by_cases ho : rule.Occurs cs
    · have hlt := Rule.countP_apply_lt hrule ho
      right
      obtain hnone | hless := ih hrules (rule.apply cs)
      · rwa [applyRules_of_not_occurs hrules hnone]
      · exact hless.trans hlt
    · rw [Rule.apply_of_not_occurs hrule ho]
      exact (ih hrules cs).imp_left fun hnone => List.forall_mem_cons.mpr ⟨ho, hnone⟩

theorem applyRules_eq_self (h : ∀ rule ∈ rules, rule.Shrinks f) :
    applyRules rules cs = cs ↔ ∀ rule ∈ rules, ¬ rule.Occurs cs := by
  refine ⟨fun heq => ?_, applyRules_of_not_occurs h⟩
  obtain hnone | hless := applyRules_cases h cs
  · exact hnone
  · rw [heq] at hless
    exact absurd hless (Nat.lt_irrefl _)

/-- Applied again and again, the rules stop changing the text before long. -/
theorem applyRules_settles (h : ∀ rule ∈ rules, rule.Shrinks f) (cs : List Char) :
    ∃ n ≤ cs.countP f,
      applyRules rules ((applyRules rules)^[n] cs) = (applyRules rules)^[n] cs := by
  obtain hnone | hless := applyRules_cases h cs
  · exact ⟨0, Nat.zero_le _, applyRules_of_not_occurs h hnone⟩
  · obtain ⟨n, hn, hfixed⟩ := applyRules_settles h (applyRules rules cs)
    exact ⟨n + 1, by omega, hfixed⟩
termination_by cs.countP f

namespace WebFlux

def verticle : Rule :=
  ⟨"io.vertx.core.AbstractVerticle", "org.springframework.stereotype.Service"⟩

def promise : Rule := ⟨"io.vertx.core.Promise", "reactor.core.publisher.Mono"⟩

/-- The deletion. -/
def superclass : Rule := ⟨"extends AbstractVerticle", ""⟩

def json : Rule :=
  ⟨"import io.vertx.core.json.JsonObject;", "import com.fasterxml.jackson.databind.JsonNode;"⟩

/-- The rules but the last. -/
def leading : List Rule := [verticle, promise, superclass]

theorem mem_rules : rule ∈ Strategy.webFluxRules ↔ rule ∈ leading ∨ rule = json := by
  have hrules : Strategy.webFluxRules = leading ++ [json] := rfl
  rw [hrules, List.mem_append, List.mem_singleton]

/-- The capitals that the patterns lose. -/
def isLost (c : Char) : Bool := c == 'V' || c == 'P' || c == 'O'

theorem shrinks : ∀ rule ∈ Strategy.webFluxRules, rule.Shrinks isLost := by
  unfold Rule.Shrinks
  decide +kernel

/-- One of the rules but the last finds its pattern in a text. -/
def Pending (cs : List Char) : Prop := ∃ rule ∈ leading, rule.Occurs cs

instance (cs : List Char) : Decidable (Pending cs) :=
  inferInstanceAs (Decidable (∃ rule ∈ leading, rule.Occurs cs))

/-- The text that the deletion sees. -/
def renamed (cs : List Char) : List Char := promise.apply (verticle.apply cs)

theorem not_verticle_renamed : ¬ verticle.Occurs (renamed cs) := fun h =>
  Rule.not_occurs_apply (by decide) (by decide +kernel)
    (Rule.occurs_of_apply (by decide) (by decide) (by decide +kernel) h)

theorem not_promise_renamed : ¬ promise.Occurs (renamed cs) :=
  Rule.not_occurs_apply (by decide) (by decide +kernel)

theorem not_json_applied : ¬ json.Occurs (applyRules Strategy.webFluxRules cs) :=
  Rule.not_occurs_apply (by decide) (by decide +kernel)

theorem pending_json : Pending (json.apply cs) ↔ Pending cs := by
  unfold Pending
  refine exists_congr fun rule => and_congr_right fun hm => ?_
  have hapart : ∀ rule ∈ leading, rule.pattern.toList ≠ [] ∧
      Apart json.pattern.toList rule.pattern.toList ∧
      Apart json.replacement.toList rule.pattern.toList := by
    decide +kernel
  obtain ⟨hne, hold, hnew⟩ := hapart rule hm
  exact infix_replaceAll_iff (by decide) hne hold hnew

theorem intercalate_empty (parts : List (List Char)) :
    List.intercalate [] parts = parts.flatten := by
  induction parts with
  | nil => rfl
  | cons part parts ih =>
    by_cases hp : parts = []
    · simp [hp]
    · rw [intercalate_cons _ _ hp, ih]
      rfl

/-- A pattern that is there afterwards stands where the deletion has joined the parts of the text. -/
theorem exists_joined (cs : List Char) : ∃ parts,
    superclass.pattern.toList.intercalate parts = renamed cs ∧ (∀ part ∈ parts, ¬ Pending part) ∧
      (Pending (applyRules Strategy.webFluxRules cs) ↔ Pending parts.flatten) := by
  have hne : superclass.pattern.toList ≠ [] := by decide
  obtain ⟨parts, hparts⟩ := exists_parted hne (renamed cs)
  refine ⟨parts, hparts.glue, fun part hm => ?_, ?_⟩
  · have hin : part <:+: renamed cs := hparts.glue ▸ part_within hm
    rintro ⟨rule, hrule, ho⟩
    simp only [leading, List.mem_cons, List.not_mem_nil, or_false] at hrule
    obtain rfl | rfl | rfl := hrule
    · exact not_verticle_renamed (ho.trans hin)
    · exact not_promise_renamed (ho.trans hin)
    · exact hparts.not_within hne part hm ho
  · have hjoined : applyRules Strategy.webFluxRules cs = json.apply parts.flatten := by
      have hdeleted : superclass.apply (renamed cs) = parts.flatten := by
        rw [← intercalate_empty]
        exact replaceAll_parted hne hparts
      rw [← hdeleted]
      rfl
    rw [hjoined, pending_json]

/-- The result of the rules is changed by them again where one of the first three patterns is in it. -/
theorem reapplied_eq_self :
    applyRules Strategy.webFluxRules (applyRules Strategy.webFluxRules cs) =
        applyRules Strategy.webFluxRules cs ↔
      ¬ Pending (applyRules Strategy.webFluxRules cs) := by
  rw [applyRules_eq_self shrinks]
  constructor
  · rintro hnone ⟨rule, hm, ho⟩
    exact hnone rule (mem_rules.mpr (.inl hm)) ho
  · intro hno rule hm ho
    obtain hm | rfl := mem_rules.mp hm
    · exact hno ⟨rule, hm, ho⟩
    · exact not_json_applied ho

end WebFlux

end Refit.Source
