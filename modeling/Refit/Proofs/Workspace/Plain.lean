import Refit.Proofs.Workspace.Copied
import Refit.Proofs.Workspace.Exact

namespace Refit.Workspace

open Refit.Path Refit.Tree

variable {t : Tree} {r names place : Place} {entry : Entry} {bytes : ByteArray} {runnable : Bool}
  {w w' : World}

/-- No excluded directory contains the file that the names lead to. -/
def shown (names : Place) : Bool := names.dropLast.all fun s => !isExcluded s

theorem isExcluded_of_shown {s : String} (h : shown names = true) (hs : s ∈ names.dropLast) :
    isExcluded s = false := by
  simpa using List.all_eq_true.mp h s hs

theorem Belongs.straight (h : Belongs t r names place entry) (hr : ∀ s ∈ r, IsName s)
    (hu : t.Unlinked r) : place = r ++ names :=
  spot_straight (spells_text (named_append hr h.named)) (fun _ hp => hu.not_linkAt hp)
    (entryAt_eq_ok.mp h.leads) rfl

theorem avoids_unlinked {S : Place → Prop} (hr : ∀ s ∈ r, IsName s) (hu : t.Unlinked r) :
    Avoids t r S := by
  intro names directory s target hb hl
  rw [hb.straight hr hu, List.append_assoc] at hl
  exact absurd ⟨target, hl⟩ (hu.not_linkAt (List.prefix_refl _))

theorem mem_dropLast {s : String} (h : s ∈ names.dropLast) :
    ∃ above, above ++ [s] <+: names ∧ above ++ [s] ≠ names := by
  obtain ⟨above, below, he⟩ := List.append_of_mem h
  have hp : above ++ [s] <+: names.dropLast := ⟨below, by simp [he]⟩
  refine ⟨above, hp.trans (List.dropLast_prefix _), fun hn => ?_⟩
  have hl := hp.length_le
  have hne : names ≠ [] := by
    rintro rfl
    cases h
  rw [hn, List.length_dropLast] at hl
  have hpos := List.length_pos_iff.mpr hne
  omega

theorem belongs_file (ht : t.Sound) (hr : ∀ s ∈ r, IsName s) (hu : t.Unlinked r) :
    (∃ place, Belongs t r names place (.file bytes runnable)) ↔
      t.get? (r ++ names) = some (.file bytes runnable) ∧ shown names = true := by
  constructor
  · rintro ⟨place, hb⟩
    have hg := (spot_file (entryAt_eq_ok.mp hb.leads)).2
    rw [hb.straight hr hu] at hg
    refine ⟨hg, List.all_eq_true.mpr fun s hs => ?_⟩
    obtain ⟨above, hp, hne⟩ := mem_dropLast hs
    have hpr := (List.prefix_append_right_inj r).mpr hp
    have hd := ht.above (by rw [hg]; exact nofun) hpr fun he => hne (List.append_cancel_left he)
    have hname := fun a ha => named_append hr hb.named a (hpr.subset ha)
    have hdir : t.isDirectory (Place.text (r ++ (above ++ [s]))) = true :=
      isDirectory_eq_true.mpr ⟨_, entryAt_eq_ok.mpr ((spot_text_directory ht hname fun q hq =>
        hu.not_linkAt (hq.trans hpr)).mpr ⟨rfl, hd⟩)⟩
    rw [hb.kept above s hp hdir]
    rfl
  · rintro ⟨hg, hshown⟩
    have hname := named_of_get? ht (p := r ++ names) (by rw [hg]; exact nofun)
    have hne : r ++ names ≠ [] := by
      intro he
      rw [he] at hg
      cases hg
    have hs := spot_text hne hname (fun p hp hn => ht.above (by rw [hg]; exact nofun) hp hn) hg nofun
    refine ⟨r ++ names, fun s hs => hname s (List.mem_append_right _ hs), ?_, entryAt_eq_ok.mpr hs⟩
    intro above s hp hd
    refine isExcluded_of_shown hshown ?_
    obtain ⟨below, rfl⟩ := hp
    by_cases hb : below = []
    · subst hb
      obtain ⟨p, hd⟩ := isDirectory_eq_true.mp hd
      rw [List.append_nil, ← entryAt_eq_ok, hd] at hs
      cases hs
    · rw [List.dropLast_append_of_ne_nil hb]
      simp

theorem unlinked_prune (hu : t.Unlinked r) :
    (t.prune (sandbox r)).Unlinked r := by
  rintro p hp ⟨target, hl⟩
  by_cases hs : sandbox r <+: p
  · rw [get?_prune_sandbox hs] at hl
    cases hl
  · rw [← get?_of_prune rfl hs] at hl
    exact hu p hp ⟨target, hl⟩

theorem mapPath_text (hr : ∀ s ∈ r, IsName s) (hne : names ≠ []) (hn : ∀ s ∈ names, IsName s) :
    (ofPlace r).mapPath (Place.text (r ++ names)) = .ok (Place.text (sandbox r ++ names)) := by
  have hs := stripPrefix?_text hr hne hn
  unfold mapPath
  rw [show (ofPlace r).projectRoot = r.text from rfl, hs]
  exact congrArg Except.ok (joinPath_text (named_sandbox hr) hne hn)

theorem not_fileAt_of_cleanup (ht : w.tree.Sound) (hr : ∀ s ∈ r, IsName s)
    (h : (ofPlace r).cleanup.run w = (.ok (), w')) : ¬ w.tree.FileAt (sandbox r) := by
  rintro ⟨bytes, runnable, hg⟩
  have hs := spotOfLink_text (sandbox_ne_nil r) (named_sandbox hr)
    (fun p hp hn => ht.above (by rw [hg]; exact nofun) hp hn) hg
  have hremove : w.tree.removeAll (ofPlace r).root = .error .notDirectory := by
    change w.tree.removeAll (sandbox r).text = _
    simp [removeAll, hs, bind, Except.bind, throw, throwThe, MonadExceptOf.throw]
  rw [run_cleanup, hremove] at h
  cases h

/-- The workspace of a project without links. -/
theorem create_plain (ht : w.tree.Sound) (ho : w.tree.Single) (hr : ∀ s ∈ r, IsName s)
    (hs : w.tree.Solid r) (hl : ∀ p, r <+: p → ¬ w.tree.LinkAt p)
    (h : (ofPlace r).create.run w = (.ok (), w')) :
    AlikeOutside (sandbox r) w.tree w'.tree ∧ w'.tree.Sound ∧ w'.tree.Unlinked r ∧
      ¬ w.tree.FileAt (sandbox r) ∧ w'.tree.get? (sandbox r) = some .directory ∧
      ∀ names bytes runnable, w'.tree.get? (sandbox r ++ names) = some (.file bytes runnable) ↔
          w.tree.get? (r ++ names) = some (.file bytes runnable) ∧ shown names = true := by
  have hu := hs.unlinked hl
  have hup := unlinked_prune hu
  obtain ⟨hcopy, hexact⟩ := create_copy ht ho hr hs (avoids_unlinked hr hup) h
  have hout : AlikeOutside (sandbox r) w.tree w'.tree := fun p hp => by
    rw [hcopy.outside hp, ← get?_of_prune rfl hp]
  have hnoFile : ¬ w.tree.FileAt (sandbox r) := by
    obtain ⟨_, _, hc, -⟩ := Step.bind_eq_ok ((create_eq _) ▸ h)
    exact not_fileAt_of_cleanup ht hr hc
  refine ⟨hout, hcopy.sound, fun p hp => ?_, hnoFile, hcopy.root,
    fun names bytes runnable => ?_⟩
  · by_cases hsp : sandbox r <+: p
    · exact hcopy.linkFree hsp
    · rw [hout.linkAt_iff hsp]
      exact hu p hp
  · rw [hexact, belongs_file ht.prune hr hup]
    refine and_congr_left fun hshown => ?_
    by_cases hsp : sandbox r <+: r ++ names
    · rw [get?_prune_sandbox hsp]
      refine iff_of_false nofun fun hg => ?_
      obtain ⟨rest, hn⟩ := hsp
      rw [sandbox_append] at hn
      obtain rfl := List.append_cancel_left hn
      cases rest with
      | nil =>
        exact hnoFile ⟨bytes, runnable, hg⟩
      | cons a rest =>
        have hx := isExcluded_of_shown hshown (s := directoryName) (by simp)
        revert hx
        decide
    · rw [← get?_of_prune rfl hsp]

end Refit.Workspace
