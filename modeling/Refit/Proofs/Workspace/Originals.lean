import Refit.Proofs.Tree.Fillers
import Refit.Proofs.Workspace.Unseen

namespace Refit

open Refit.Path Refit.Tree

variable {t u : Tree} {p q r names : Place} {path : String} {bytes : ByteArray} {runnable : Bool}

namespace Tree

theorem spot_spelled (h : Spells path q) (hq : ∀ s ∈ q, IsName s)
    (hs : t.spot path = .ok (.found p (.file bytes runnable))) :
    t.spot q.text = .ok (.found p (.file bytes runnable)) := by
  rw [spot_text_eq hq]
  have hn : ((ofText path).segments.filter fun s => !isFiller s) = q := h.names
  rw [← hn]
  exact follow_thins (thins_names _) (spot_eq_ok.mp hs).2

end Tree

namespace Workspace

/-- A sandbox in the making whose files are copies: each holds what the path of its original leads
to, where that is not looked for in the sandbox. -/
structure Originals (t : Tree) (r : Place) (u : Tree) : Prop where
  fresh : Fresh t r u
  leads : ∀ names bytes runnable, (∀ s ∈ names, IsName s) →
    Shuns t r [] (Place.text (r ++ names)) →
    u.get? (sandbox r ++ names) = some (.file bytes runnable) →
      ∃ p, t.entryAt (Place.text (r ++ names)) = .ok (p, .file bytes runnable)

theorem originals_made (t : Tree) (hr : ∀ s ∈ r, IsName s) : Made t r (Originals t r) where
  copying := {
    fresh := fun _ h => h.fresh
    directory := by
      intro u p h hp hn hg
      have hne : p ≠ [] := fun he => sandbox_ne_nil r (List.prefix_nil.mp (he ▸ hp))
      refine ⟨h.fresh.put hp hn (fun _ he => by cases he),
        fun names bytes runnable hnames hshuns hf => ?_⟩
      rw [get?_put _ _ _ _ hne] at hf
      split at hf
      · cases hf
      · exact h.leads names bytes runnable hnames hshuns hf
    file := by
      intro u v origin bytes runnable h hv hs _
      have hnamed := named_append (named_sandbox hr) hv.named
      have hne : sandbox r ++ v.names ≠ [] := by simp [sandbox]
      refine ⟨h.fresh.put (List.prefix_append _ _) hnamed (fun _ he => by cases he),
        fun names bytes' m hnames hshuns hf => ?_⟩
      rw [get?_put _ _ _ _ hne] at hf
      split at hf
      · rename_i he
        obtain rfl := List.append_cancel_left he
        have hs := entryAt_eq_ok.mpr (spot_spelled hv.spells (named_append hr hnames) hs)
        have hleads : t.entryAt (Place.text (r ++ v.names)) = .ok (origin, .file bytes runnable) :=
          (agree_of_shuns h.fresh.outside hshuns).symm.trans hs
        have hout : ¬ sandbox r <+: origin := by
          refine canonical_outside hshuns (fun hn => sandbox_ne_nil r (List.prefix_nil.mp hn)) ?_
          exact canonical_eq_ok.mpr ⟨_, entryAt_eq_ok.mp hleads⟩
        have hapart : sandbox r ++ v.names ≠ origin := by
          rintro rfl
          exact hout (List.prefix_append _ _)
        rw [if_neg hapart] at hf
        cases hf
        exact ⟨origin, hleads⟩
      · exact h.leads names bytes' m hnames hshuns hf }
  cleared u ho hn hg := by
    refine ⟨(fresh_made t hr).cleared u ho hn hg, fun names bytes runnable _ _ hf => ?_⟩
    rw [hg _ (List.prefix_append _ _)] at hf
    cases hf

end Workspace

end Refit
