import Refit.Proofs.Run.Reworked
import Refit.Proofs.Source.Reapplied

/-!
A run for the rules alone over the output of an earlier one. It promotes the files in which the
deletion has brought a pattern about, and no others (`migrate_again`).
-/

namespace Refit.Run

open Refit.Path Refit.Tree Workspace
open Source (applyRules)
open Source.WebFlux (Pending)

variable {around : Surroundings} {order : Order} {w w' : World} {place r : Place}
  {files : List String} {text : String}

theorem needsMigration_of_pending (h : Pending text.toList) :
    Strategy.webFlux.needsMigration text = true := by
  obtain ⟨rule, hm, ho⟩ := h
  have hmarked : ∀ rule ∈ Source.WebFlux.leading, ∃ marker ∈ ["Verticle", "Future", "Promise"],
      marker.toList <:+: rule.pattern.toList := by
    decide +kernel
  obtain ⟨marker, hmarker, hin⟩ := hmarked rule hm
  exact List.any_eq_true.mpr ⟨marker, hmarker, Text.occurs_iff.mpr (hin.trans ho)⟩

theorem rewritten_of_needs (h : Strategy.webFlux.needsMigration text = true) :
    (rewritten text).toList = applyRules Strategy.webFluxRules text.toList := by
  rw [rewritten, if_pos h, String.toList_ofList]

theorem rewritten_of_no_need (h : ¬ Strategy.webFlux.needsMigration text = true) :
    rewritten text = text := if_neg h

theorem rewritten_again :
    rewritten (rewritten text) = rewritten text ↔ ¬ Pending (rewritten text).toList := by
  by_cases hagain : Strategy.webFlux.needsMigration (rewritten text) = true
  · have htext : Strategy.webFlux.needsMigration text = true := by
      by_contra hno
      exact hno (rewritten_of_no_need hno ▸ hagain)
    rw [← String.toList_inj, rewritten_of_needs hagain, rewritten_of_needs htext]
    exact Source.WebFlux.reapplied_eq_self
  · rw [rewritten_of_no_need hagain]
    exact iff_of_true rfl (mt needsMigration_of_pending hagain)

def Output (w : World) (r : Place) (files : List String) : Prop :=
  ∀ file ∈ files, ∀ text, textOf w.tree r file = some text → ∃ before, text = rewritten before

/-- The rules change their own result just where one of the first three patterns stands in it, across
a place where the deletion has joined two parts of the text. They come to a text that they leave
alone, and a run over their output promotes the files whose text is not yet one. -/
theorem migrate_again :
    (∀ cs, let result := applyRules Strategy.webFluxRules cs
      (applyRules Strategy.webFluxRules result = result ↔ ¬ Pending result) ∧
      (∃ parts, Source.WebFlux.superclass.pattern.toList.intercalate parts =
          Source.WebFlux.renamed cs ∧
        (∀ part ∈ parts, ¬ Pending part) ∧ (Pending result ↔ Pending parts.flatten)) ∧
      ¬ Source.WebFlux.json.Occurs result ∧
      ∃ n ≤ cs.countP Source.WebFlux.isLost,
        applyRules Strategy.webFluxRules ((applyRules Strategy.webFluxRules)^[n] cs) =
          (applyRules Strategy.webFluxRules)^[n] cs) ∧
    ∀ {around order w place r files w'}, Unattended around order w place r files w' →
      Output w r files →
      (∀ file ∈ files, ∀ text, textOf w.tree r file = some text →
        w'.tree.readText file = .ok (rewritten text) ∧
        (rewritten text = text ↔ ¬ Pending text.toList)) ∧
      ∃ s, w'.journal.getLast? = some (.notice (.summary s false)) ∧
        (s.promoted = files.countP fun file =>
          (textOf w.tree r file).any fun text => decide (Pending text.toList)) ∧
        s.failed = files.countP fun file => (textOf w.tree r file).isNone := by
  refine ⟨fun cs => ⟨Source.WebFlux.reapplied_eq_self, Source.WebFlux.exists_joined cs,
    Source.WebFlux.not_json_applied, Source.applyRules_settles Source.WebFlux.shrinks cs⟩, ?_⟩
  intro around order w place r files w' h hout
  obtain ⟨-, -, -, -, -, -, -, -, -, -, hlast⟩ := h.reworked
  have hagain : ∀ file ∈ files, ∀ text, textOf w.tree r file = some text →
      (rewritten text = text ↔ ¬ Pending text.toList) := by
    intro file hm text htext
    obtain ⟨before, rfl⟩ := hout file hm text htext
    exact rewritten_again
  refine ⟨fun file hm text htext => ⟨h.readText hm htext, hagain file hm text htext⟩, _, hlast,
    ?_, List.countP_map⟩
  rw [tallied, List.countP_map]
  refine List.countP_congr fun file hm => ?_
  rw [Function.comp_apply]
  cases htext : textOf w.tree r file with
  | none => rfl
  | some text =>
    rw [Option.any_some, Option.any_some, bne_iff_ne, decide_eq_true_iff, ne_eq,
      hagain file hm text htext, not_not]

def severed : String := "io.vertx.core.Pextends AbstractVerticleromise"

theorem rewritten_severed : rewritten severed = "io.vertx.core.Promise" := by
  decide +kernel

theorem soleTree_solid : soleTree.Solid [] := by
  intro p hp
  rw [List.prefix_nil.mp hp]
  exact ⟨nofun, soleTree_linkFree []⟩

theorem unattended_sole : ∃ w', Unattended alone soleOrder ⟨soleTree, []⟩ ["A.java"] [] ["/A.java"] w' := by
  have hrun : (migrate alone soleOrder).succeeds (fun _ w => w.journal.all fun
      | .notice (.interrupted _ _) => false
      | _ => true) ⟨soleTree, []⟩ = true := by
    decide +kernel
  have hsettings : (Settings.load soleTree (ProjectRoot.find soleTree (Place.text ["A.java"]))
      alone.environment).toOption.all (fun s => !s.hasAnyKey) = true := by
    decide +kernel
  obtain ⟨⟨⟩, w', hrun, hgo⟩ := Step.exists_of_succeeds hrun
  exact ⟨w', {
    sound := soleTree_sound
    single := soleTree_single
    solid := soleTree_solid
    canonical := by decide +kernel
    root := by decide +kernel
    unlinked := fun p _ => soleTree_linkFree p
    found := by decide +kernel
    nonempty := by decide
    noKey := fun s hs => by simpa [hs, Except.toOption] using hsettings
    approved := ⟨rfl, rfl⟩
    passed := hrun
    going := fun n k hm => Bool.noConfusion (List.all_eq_true.mp hgo _ hm) }⟩

theorem migrate_again_severed : rewritten severed = "io.vertx.core.Promise" ∧
    textOf soleTree [] "/A.java" = some "io.vertx.core.Promise" ∧
    ∃ w' s, (migrate alone soleOrder).run ⟨soleTree, []⟩ = (.ok (), w') ∧
      w'.journal.getLast? = some (.notice (.summary s false)) ∧ s.promoted = 1 := by
  have htext : textOf soleTree [] "/A.java" = some "io.vertx.core.Promise" := by decide +kernel
  obtain ⟨w', h⟩ := unattended_sole
  have hout : Output ⟨soleTree, []⟩ [] ["/A.java"] := by
    intro file hm text hfile
    rw [List.mem_singleton.mp hm, htext] at hfile
    exact ⟨severed, (Option.some.inj hfile).symm.trans rewritten_severed.symm⟩
  obtain ⟨-, s, hlast, hcount, -⟩ := migrate_again.2 h hout
  refine ⟨rewritten_severed, htext, w', s, h.passed, hlast, hcount.trans ?_⟩
  decide +kernel

/-- The text around the deletion becomes a name that the rules replace the next time. -/
theorem applyRules_twice : let once := applyRules Strategy.webFluxRules severed.toList
    once = "io.vertx.core.Promise".toList ∧
      applyRules Strategy.webFluxRules once = "reactor.core.publisher.Mono".toList ∧
      applyRules Strategy.webFluxRules once ≠ once := by
  decide +kernel

end Refit.Run
