import Refit.Proofs.Twins
import Refit.Proofs.Workspace.Originals

namespace Refit.Workspace

open Refit.Path Refit.Tree

variable {v : Veil} {t t' u u' : Tree} {r names : Place} {path : String}

def wide (v : Veil) : Veil := { v with covers := fun _ => True }

theorem cleanup_abreast (ws : Workspace) :
    Step.Abreast (Twins v fun _ => False) (Twins v fun _ => False) ws.cleanup ws.cleanup := by
  intro w w' h
  have hb := h.trees.veiled.removeAll_veiled ws.root
  rw [Workspace.run_cleanup, Workspace.run_cleanup]
  cases ht : w.tree.removeAll ws.root <;> cases hu : w'.tree.removeAll ws.root <;> rw [ht, hu] at hb
  · rename_i e e'
    cases hb
    cases e <;> exact ⟨rfl, h⟩
  · exact hb.elim
  · exact hb.elim
  · exact ⟨rfl, ⟨⟨hb, nofun⟩, keyless_extend h.journal rfl⟩⟩

theorem copyEntry_abreast (hc : ∀ p, v.covers p) (ws : Workspace) (x : Visit) :
    Step.Abreast (Twins v fun _ => False) (Twins v fun _ => False) (ws.copyEntry x)
      (ws.copyEntry x) := by
  unfold copyEntry
  split
  · refine (Step.abreast_change fun w w' h => ?_).bind fun _ => Step.abreast_pure _
    exact (h.trees.veiled.makeDirectories_veiled _).mono fun _ _ hv => h.setTree ⟨hv, nofun⟩
  · refine (Step.abreast_change fun w w' h => ?_).bind fun _ => Step.abreast_pure _
    exact (h.trees.veiled.copy_veiled hc _ _).mono fun _ _ hv => h.setTree ⟨hv, nofun⟩

theorem copyMet_abreast (hc : ∀ p, v.covers p) (ws : Workspace) {enter : Visit → Action Nat}
    (henter : ∀ x, Step.Abreast (Twins v fun _ => False) (Twins v fun _ => False) (enter x) (enter x))
    (name : String) (met : Except WalkError Visit) :
    Step.Abreast (Twins v fun _ => False) (Twins v fun _ => False) (ws.copyMet enter name met)
      (ws.copyMet enter name met) := by
  cases met with
  | error cause => exact Step.abreast_fail _
  | ok x =>
    unfold copyMet
    dsimp only
    split
    · split
      · exact Step.abreast_pure _
      · exact (copyEntry_abreast hc ws x).bind fun _ => (henter x).bind fun _ => Step.abreast_pure _
    · exact copyEntry_abreast hc ws x

theorem copyListed_abreast (hc : ∀ p, v.covers p) (ws : Workspace) {enter : Visit → Action Nat}
    (henter : ∀ x, Step.Abreast (Twins v fun _ => False) (Twins v fun _ => False) (enter x) (enter x))
    (inside : List Open) (here : Open) (names : List String) {children children' : List (String × Entry)}
    (hl : List.Forall₂ (fun c d => d.1 = c.1 ∧ v.Matches c.2 d.2) children children') :
    Step.Abreast (Twins v fun _ => False) (Twins v fun _ => False)
      (ws.copyListed enter inside here names children)
      (ws.copyListed enter inside here names children') := by
  induction hl with
  | nil => exact Step.abreast_pure 0
  | cons hcd _ ih =>
    refine Step.abreast_tree fun w w' h => ?_
    rw [h.trees.veiled.visit_eq inside here names hcd, hcd.1]
    exact (copyMet_abreast hc ws henter _ _).bind fun _ => ih.bind fun _ => Step.abreast_pure _

theorem copyBelow_abreast (hc : ∀ p, v.covers p) (ws : Workspace) (depth : Nat)
    (outside : List Open) (here : Open) (names : List String) :
    Step.Abreast (Twins v fun _ => False) (Twins v fun _ => False)
      (ws.copyBelow depth outside here names) (ws.copyBelow depth outside here names) := by
  induction depth generalizing outside here names with
  | zero => exact Step.abreast_fail _
  | succ depth ih =>
    exact Step.abreast_tree fun w w' h =>
      copyListed_abreast hc ws (fun x => ih _ _ _) _ here names
        (h.trees.veiled.children_veiled here.place)

theorem create_abreast (hc : ∀ p, v.covers p) (ws : Workspace) :
    Step.Abreast (Twins v fun _ => False) (Twins v fun _ => False) ws.create ws.create := by
  have hN := Twins.notable v fun _ => False
  unfold create
  refine (cleanup_abreast ws).bind fun _ => (Step.abreast_note hN _).bind fun _ => ?_
  refine (Step.abreast_change fun w w' h => ?_).bind fun _ => ?_
  · exact (h.trees.veiled.makeDirectories_veiled _).mono fun _ _ hv => h.setTree ⟨hv, nofun⟩
  refine Step.abreast_tree fun w w' h => ?_
  rw [h.trees.veiled.walkDepth_eq]
  refine (Step.abreast_inspect fun w w' h => (h.trees.veiled.canonical_eq _ _).symm).bind
    fun place => ?_
  exact (copyBelow_abreast hc ws _ _ _ _).bind fun _ => Step.abreast_note hN _

/-- What differs after a change that is confined to the sandbox differed before, or is in the
sandbox. -/
theorem veiled_outside (h : Veiled v t t') (hu : Veiled (wide v) u u')
    (hs : ∀ p, sandbox r <+: p → v.covers p) (ho : AlikeOutside (sandbox r) t u)
    (ho' : AlikeOutside (sandbox r) t' u') : Veiled v u u' where
  entries := hu.entries
  covered p hp := by
    by_cases hin : sandbox r <+: p
    · exact hs p hin
    · rw [ho p hin, ho' p hin] at hp
      exact h.covered p hp

theorem Shuns.veiled (h : Shuns t r [] path) (hv : Veiled v t t') : Shuns t' r [] path := by
  unfold Shuns
  rw [hv.trail_eq]
  exact h

theorem agreeAt_original (hv : Veiled v t t') (hs : Shuns t r [] path) (ha : AgreeAt t t' path)
    (ho : AlikeOutside (sandbox r) t u) (ho' : AlikeOutside (sandbox r) t' u') :
    AgreeAt u u' path :=
  (agree_of_shuns ho' (hs.veiled hv)).trans (Eq.trans ha (agree_of_shuns ho hs).symm)

/-- The copies of what reads alike read alike. -/
theorem agreeAt_copy {mapped : String} (hv : Veiled v t t') (hu : Veiled v u u')
    (hsolid : t.Solid r) (hnames : ∀ s ∈ names, IsName s)
    (hs : Shuns t r [] (Place.text (r ++ names))) (ha : AgreeAt t t' (Place.text (r ++ names)))
    (ho : Originals t r u) (ho' : Originals t' r u') (hm : Spells mapped (sandbox r ++ names)) :
    AgreeAt u u' mapped := by
  obtain he | ⟨p, m, hl, hr⟩ := hu.entryAt_veiled mapped
  · exact he
  · have hspot := entryAt_eq_ok.mp hl
    obtain rfl : p = sandbox r ++ names :=
      spot_straight hm (fun q hq => (ho.fresh.unlinked hsolid).not_linkAt hq) hspot rfl
    obtain ⟨_, hleft⟩ := ho.leads names _ m hnames hs (spot_file hspot).2
    obtain ⟨_, hright⟩ :=
      ho'.leads names _ m hnames (hs.veiled hv) (spot_file (entryAt_eq_ok.mp hr)).2
    rw [Veiled.right_eq_left ha hleft hright] at hr
    exact hr.trans hl.symm

end Refit.Workspace
