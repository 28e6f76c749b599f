import Refit.Proofs.Chat.Keyless
import Refit.Proofs.Tree.Veil

namespace Refit

open Refit.Tree

/-- Two worlds that differ in the keys of requests and under a veil only, and not where the paths of
a set lead. -/
structure Twins (v : Veil) (P : String → Prop) (w w' : World) : Prop where
  trees : Shown v P w.tree w'.tree
  journal : keyless w.journal = keyless w'.journal

namespace Twins

variable {v : Veil} {P : String → Prop} {w w' : World} {path : String}

theorem notes (h : Twins v P w w') {es es' : List Event} (he : keyless es = keyless es') :
    Twins v P (w.notes es) (w'.notes es') := ⟨h.trees, keyless_extend h.journal he⟩

theorem notable (v : Veil) (P : String → Prop) : Step.Notable (Twins v P) :=
  fun _ _ _ h => h.notes rfl

theorem setTree (h : Twins v P w w') {t u : Tree} (hs : Shown v P t u) :
    Twins v P { w with tree := t } { w' with tree := u } := ⟨hs, h.journal⟩

theorem write (h : Twins v P w w') (path : String) (bytes : ByteArray) :
    Both (fun t u => Twins v P { w with tree := t } { w' with tree := u })
      (w.tree.write path bytes) (w'.tree.write path bytes) :=
  (h.trees.write path bytes).mono fun _ _ hs => h.setTree hs

theorem copy (h : Twins v P w w') (hp : P path) (target : String) :
    Both (fun t u => Twins v P { w with tree := t } { w' with tree := u })
      (w.tree.copy path target) (w'.tree.copy path target) :=
  (h.trees.copy hp target).mono fun _ _ hs => h.setTree hs

theorem readText (h : Twins v P w w') (hp : P path) :
    w.tree.readText path = w'.tree.readText path := (h.trees.agree path hp).readText.symm

theorem shares (v : Veil) (P : String → Prop) : Step.Shares (Twins v P) P where
  noted := notable v P
  written _ _ path bytes h := h.write path bytes
  copied _ _ _ target h hp := h.copy hp target
  read _ _ _ h hp := h.readText hp

theorem forget (h : Twins v P w w') : Twins v (fun _ => False) w w' :=
  ⟨⟨h.trees.veiled, nofun⟩, h.journal⟩

end Twins

end Refit
