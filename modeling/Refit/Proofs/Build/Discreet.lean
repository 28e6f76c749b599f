import Refit.Proofs.Repair.Abreast
import Refit.Proofs.Twins

namespace Refit.Build

open Refit.Tree

variable {v : Veil} {P : String → Prop} {t u : Tree} {tools : Tools}

/-- Two runs of a tool come to the same and leave trees that are as alike as before. -/
structure ToolRun.Beside (v : Veil) (P : String → Prop) (run run' : ToolRun) : Prop where
  exit : run'.exit = run.exit
  stdout : run'.stdout = run.stdout
  stderr : run'.stderr = run.stderr
  trees : Shown v P run.tree run'.tree

/-- Build tools that look neither at keys nor under a veil, and that leave what some paths lead to
alike. -/
def Discreet (v : Veil) (P : String → Prop) (tools : Tools) : Prop :=
  ∀ j j' t u program directory arguments, keyless j = keyless j' → Shown v P t u →
    ToolRun.Beside v P (tools j t program directory arguments)
      (tools j' u program directory arguments)

theorem detect_veiled (h : Veiled v t u) (root : String) :
    System.detect u root = System.detect t root := by
  unfold System.detect
  rw [h.exists?_eq, h.exists?_eq]

theorem lookUp_veiled (h : Veiled v t u) (searchPath : Option String) (name : String) :
    lookUp u searchPath name = lookUp t searchPath name := by
  unfold lookUp
  rw [funext h.isRunnable_eq]

namespace Builder

theorem forRoot_veiled (h : Veiled v t u) (root : String) (searchPath : Option String) :
    forRoot u root searchPath = forRoot t root searchPath := by
  unfold forRoot
  rw [detect_veiled h]

theorem program_veiled (h : Veiled v t u) (b : Builder) : b.program u = b.program t := by
  unfold program
  dsimp only
  rw [h.exists?_eq, lookUp_veiled h, lookUp_veiled h]

/-- A check comes to the same, and so do the worlds after it. -/
theorem check_agrees (hd : Discreet v P tools) (b : Builder) :
    Repair.Checker.Agrees (Twins v P) ⟨b.check tools⟩ ⟨b.check tools⟩ := by
  intro w w' h
  dsimp only
  unfold check
  rw [program_veiled h.trees.veiled]
  cases b.program w.tree with
  | error diagnostic => exact ⟨rfl, h.notes rfl⟩
  | ok program =>
    dsimp only
    rw [h.trees.veiled.isRunnable_eq]
    split
    · have hrun := hd _ _ _ _ program b.root b.system.arguments h.journal h.trees
      rw [hrun.exit, hrun.stdout, hrun.stderr]
      split
      · exact ⟨rfl, (h.notes rfl).setTree hrun.trees⟩
      · exact ⟨rfl, (h.notes rfl).setTree hrun.trees⟩
    · exact ⟨rfl, h.notes rfl⟩

end Builder

end Refit.Build
