import Refit.Proofs.Workspace.Walked

/-!
A workspace is an exact copy: below the sandbox stands what belongs to the project, with every link
resolved, and nothing else (`create_exact`).
-/

namespace Refit.Workspace

open Refit.Path Refit.Tree

variable {t u u' : Tree} {r names place p q : Place} {entry : Entry} {s : String} {v : Visit}
  {w w' : World}

/-- A copy of a project in the making. `t` is the tree without the sandbox. -/
structure Copy (t : Tree) (r : Place) (u : Tree) : Prop where
  sound : u.Sound
  single : u.Single
  rest : u.prune (sandbox r) = t
  root : u.get? (sandbox r) = some .directory
  exact : ∀ names entry, u.get? (sandbox r ++ names) = some entry →
    ∃ place, Belongs t r names place entry

theorem ne_nil_of_sandbox (h : sandbox r <+: p) : p ≠ [] := by
  rintro rfl
  exact sandbox_ne_nil r (List.prefix_nil.mp h)

theorem get?_of_prune (h : u.prune (sandbox r) = t) (hp : ¬ sandbox r <+: p) :
    u.get? p = t.get? p := by
  by_cases hne : p = []
  · rw [hne]
    rfl
  · rw [← h, get?_prune _ _ _ hne, if_neg hp]

theorem doors_sandbox (h : u.get? (sandbox r) = none ∨ u.get? (sandbox r) = some .directory) :
    Doors u fun p => sandbox r <+: p := by
  intro p s hp hs
  obtain he | hs := List.prefix_concat_iff.mp hs
  · obtain ⟨rfl, hd⟩ := List.append_inj' he rfl
    cases hd
    exact ⟨by decide, h⟩
  · exact absurd hs hp

theorem shutOff_sandbox (h : u.get? (sandbox r) = none ∨ u.get? (sandbox r) = some .directory)
    (ha : Avoids u r fun p => sandbox r <+: p) : ShutOff u r fun p => sandbox r <+: p where
  below _ _ hp hq := hp.trans hq
  root := sandbox_not_above (List.prefix_refl r)
  doors := doors_sandbox h
  avoids := ha

theorem Copy.outside (h : Copy t r u) (hp : ¬ sandbox r <+: p) : u.get? p = t.get? p :=
  get?_of_prune h.rest hp

theorem Copy.linkFree (h : Copy t r u) (hp : sandbox r <+: p) : ¬ u.LinkAt p := by
  obtain ⟨names, rfl⟩ := hp
  rintro ⟨target, hl⟩
  obtain ⟨place, hb⟩ := h.exact names _ hl
  exact entryAt_not_link hb.leads

/-- No link stands on the way into the sandbox. -/
theorem Copy.unlinked (h : Copy t r u) (hs : t.Solid r) (hp : p <+: sandbox r ++ names) :
    ¬ u.LinkAt p := by
  obtain hp | hp := List.prefix_or_prefix_of_prefix hp (List.prefix_append (sandbox r) names)
  · by_cases he : p = sandbox r
    · exact h.linkFree (he ▸ List.prefix_refl _)
    · have hpr := prefix_sandbox hp he
      rintro ⟨target, hl⟩
      rw [h.outside (sandbox_not_above hpr)] at hl
      exact (hs p hpr).2 ⟨target, hl⟩
  · exact h.linkFree hp

theorem Copy.put (h : Copy t r u) (hr : ∀ s ∈ r, IsName s)
    (hd : u.get? (sandbox r ++ names) = some .directory)
    (hb : Belongs t r (names ++ [s]) place entry)
    (he : entry = .directory ∨ u.get? (sandbox r ++ (names ++ [s])) ≠ some .directory) :
    Copy t r (u.put (sandbox r ++ (names ++ [s])) entry) where
  sound := by
    rw [← List.append_assoc] at he ⊢
    refine h.sound.put ?_ hd he
    rw [List.append_assoc]
    exact named_append (named_sandbox hr) hb.named
  single := h.single.put
  rest := (prune_put (List.prefix_append _ _)).trans h.rest
  root := by
    rw [get?_put _ _ _ _ (by simp), if_neg (by simp), h.root]
  exact names' entry' hg := by
    rw [get?_put _ _ _ _ (by simp)] at hg
    split at hg
    · rename_i heq
      rw [List.append_cancel_left heq]
      cases hg
      exact ⟨place, hb⟩
    · exact h.exact names' entry' hg

/-- Where something stands in one tree, something stands in another. -/
def Keeps (u u' : Tree) : Prop := ∀ p, u.get? p ≠ none → u'.get? p ≠ none

theorem keeps_put (hp : p ≠ []) : Keeps u (u.put p entry) := by
  intro q hq
  rw [get?_put _ _ _ _ hp]
  split
  · exact nofun
  · exact hq

theorem Keeps.trans {u'' : Tree} (h : Keeps u u') (h' : Keeps u' u'') : Keeps u u'' :=
  fun p hp => h' p (h p hp)

theorem Copy.makeDirectories (h : Copy t r u) (hr : ∀ s ∈ r, IsName s) (hs : t.Solid r)
    (hb : Belongs t r names place .directory)
    (hm : u.makeDirectories (Place.text (sandbox r ++ names)) = .ok u') :
    Copy t r u' ∧ Keeps u u' ∧ u'.get? (sandbox r ++ names) ≠ none := by
  have hmade : (Copy t r u' ∧ Keeps u u') ∧ u'.get? (sandbox r ++ names) = some .directory := by
    refine makeDirectories_made (I := fun x => Copy t r x ∧ Keeps u x) (by simp [sandbox])
      (named_append (named_sandbox hr) hb.named) (fun x hx => ⟨hx.1.sound, fun p hp =>
        hx.1.unlinked hs hp⟩) ?_ hm ⟨h, fun _ hp => hp⟩
    rintro x p s ⟨hx, hk⟩ hp hd hg
    have hne : p ++ [s] ≠ sandbox r := by
      intro he
      rw [he, hx.root] at hg
      cases hg
    have hin : sandbox r <+: p := by
      obtain hp | hp := List.prefix_or_prefix_of_prefix hp (List.prefix_append (sandbox r) names)
      · rw [hx.sound.above (by rw [hx.root]; simp) hp hne] at hg
        cases hg
      · exact (List.prefix_concat_iff.mp hp).resolve_left (Ne.symm hne)
    obtain ⟨above, rfl⟩ := hin
    rw [List.append_assoc] at hp hg ⊢
    obtain ⟨directory, hdir⟩ := hb.of_prefix hr ((List.prefix_append_right_inj _).mp hp)
    exact ⟨hx.put hr hd hdir (.inl rfl), hk.trans (keeps_put (by simp))⟩
  exact ⟨hmade.1.1, hmade.1.2, by rw [hmade.2]; simp⟩

/-- A file is copied from the place that its path leads to, which is not in the sandbox. -/
theorem Copy.copy (h : Copy t r u) (hr : ∀ s ∈ r, IsName s) (hs : t.Solid r)
    (hS : ShutOff t r fun p => sandbox r <+: p) (hb : Belongs t r (names ++ [s]) place entry)
    (hd : entry ≠ .directory)
    (hc : u.copy (Place.text (r ++ (names ++ [s]))) (Place.text (sandbox r ++ (names ++ [s]))) =
      .ok u') :
    Copy t r u' ∧ Keeps u u' ∧ u'.get? (sandbox r ++ (names ++ [s])) ≠ none := by
  have hname := named_append (named_sandbox hr) hb.named
  obtain ⟨origin, bytes, runnable, q, old, hsource, htarget, rfl⟩ := copy_eq_ok hc
  obtain ⟨-, -, hout⟩ := hS.clear hr hs (fun _ _ => rfl) hS.doors hb
  have hbu := (belongs_congr hS hr hs (fun p hp => h.outside hp) (doors_sandbox (.inr h.root))).mpr hb
  have hleads := hbu.leads
  rw [entryAt_eq_ok.mpr hsource] at hleads
  cases hleads
  obtain ⟨rfl, htakes⟩ := writable_straight (spells_text hname) (fun p hp => h.unlinked hs hp) htarget
  obtain ⟨-, spot, hspot, -⟩ := writable_eq_ok htarget
  have hapart : sandbox r ++ (names ++ [s]) ≠ place := by
    intro he
    rw [← he] at hout
    exact hout (List.prefix_append _ _)
  rw [if_neg hapart]
  rw [← List.append_assoc] at hspot hname
  obtain ⟨hdir, -⟩ := spot_text_concat h.sound hname
    (fun p hp => h.unlinked hs (by rwa [List.append_assoc] at hp)) hspot
  refine ⟨h.put hr hdir hb (.inr ?_), keeps_put (by simp), ?_⟩
  · obtain ⟨-, hg | ⟨_, _, hg⟩⟩ := htakes
    · rw [hg]
      exact nofun
    · rw [hg]
      exact nofun
  · rw [get?_put _ _ _ _ (by simp), if_pos rfl]
    exact nofun

/-- Copying ends because of a file, not because the depth is used up. -/
abbrev Ended (e : Failure) (_ : World) : Prop := ∀ path, e ≠ .file path .tooLong

theorem ended_file {α : Type} {x : Except FileError α} {cause : FileError} {path : String}
    {w : World} (h : x = .error cause) (hx : x ≠ .error .tooLong) : Ended (.file path cause) w := by
  rintro _ ⟨⟩
  exact hx h

/-- A copy in the making in which something stands at each of some places. -/
def Reached (t : Tree) (r : Place) (G : Place → Prop) (w : World) : Prop :=
  Copy t r w.tree ∧ ∀ p, G p → w.tree.get? p ≠ none

theorem Reached.imp {G G' : Place → Prop} (h : Reached t r G w) (hg : ∀ p, G' p → G p) :
    Reached t r G' w :=
  ⟨h.1, fun p hp => h.2 p (hg p hp)⟩

theorem copyEntry_exact {G : Place → Prop} (hr : ∀ s ∈ r, IsName s) (hs : t.Solid r)
    (hS : ShutOff t r fun p => sandbox r <+: p) (hv : Met t r v) (hne : v.names ≠ []) :
    Step.Leads (Reached t r G) ((ofPlace r).copyEntry v)
      (fun _ => Reached t r fun p => G p ∨ p = sandbox r ++ v.names) Ended := by
  obtain ⟨hpath, entry, hb, hd⟩ := hv
  have htarget : joinPath (ofPlace r).root (Path.mk false v.names).text =
      Place.text (sandbox r ++ v.names) := joinPath_text (named_sandbox hr) hne hb.named
  have hreached : ∀ u u', (∀ p, G p → u.get? p ≠ none) →
      Copy t r u' ∧ Keeps u u' ∧ u'.get? (sandbox r ++ v.names) ≠ none →
      Copy t r u' ∧ ∀ p, G p ∨ p = sandbox r ++ v.names → u'.get? p ≠ none := by
    rintro u u' hG ⟨hcopy, hkeeps, hg⟩
    refine ⟨hcopy, fun p hp => ?_⟩
    obtain hp | rfl := hp
    · exact hkeeps p (hG p hp)
    · exact hg
  unfold copyEntry
  rw [htarget]
  split
  · rename_i hdir
    rw [hd.mp hdir] at hb
    refine Step.Leads.bind (Step.leads_change (fun u w hm h => ?_) fun _ _ he _ =>
      ended_file he makeDirectories_ne_tooLong) fun _ => Step.leads_pure fun _ h => h
    exact hreached _ _ h.2 (h.1.makeDirectories hr hs hb hm)
  · rename_i hdir
    refine Step.Leads.bind (Step.leads_change (fun u w hm h => ?_) fun _ _ he _ =>
      ended_file he copy_ne_tooLong) fun _ => Step.leads_pure fun _ h => h
    obtain ⟨names, s, hn⟩ := (List.eq_nil_or_concat v.names).resolve_left hne
    rw [List.concat_eq_append] at hn
    refine hreached _ _ h.2 ?_
    rw [hpath] at hm
    rw [hn] at hb hm ⊢
    exact h.1.copy hr hs hS hb (fun he => hdir (hd.mpr he)) hm

def Due (t : Tree) (r names : Place) (s : String) (p : Place) : Prop :=
  ∃ rest place entry, Belongs t r (names ++ s :: rest) place entry ∧
    p = sandbox r ++ (names ++ s :: rest)

theorem Copy.belongs_iff (h : Copy t r u) (hr : ∀ s ∈ r, IsName s) (hs : t.Solid r)
    (hS : ShutOff t r fun p => sandbox r <+: p) :
    Belongs u r names place entry ↔ Belongs t r names place entry :=
  belongs_congr hS hr hs (fun _ hp => h.outside hp) (doors_sandbox (.inr h.root))

theorem Copy.get?_child (h : Copy t r u) (h' : Copy t r u') (hr : ∀ s ∈ r, IsName s)
    (hs : t.Solid r) (hS : ShutOff t r fun p => sandbox r <+: p)
    (hb : Belongs t r names place .directory) : u'.get? (place ++ [s]) = u.get? (place ++ [s]) := by
  obtain ⟨-, -, hout⟩ := hS.clear hr hs (fun _ _ => rfl) hS.doors hb
  by_cases hp : sandbox r <+: place ++ [s]
  · rw [← (List.prefix_concat_iff.mp hp).resolve_right hout, h.root, h'.root]
  · rw [h.outside hp, h'.outside hp]

/-- Where something is due, a directory that is met has a name that is kept, and what something is due
below is a directory. -/
theorem Enters.visit_due {inside : List Open} {rest : List String} {v : Visit}
    (h : Enters t r here names) (hr : ∀ s ∈ r, IsName s) (hs : IsName s)
    (hg : t.get? (here.place ++ [s]) = some entry)
    (hv : t.visit inside here names (s, entry) = .ok v) {e : Entry}
    (hb : Belongs t r (names ++ s :: rest) place e) :
    (v.isDirectory = true → isExcluded s = false) ∧ (rest ≠ [] → v.isDirectory = true) := by
  obtain ⟨hpath, hn, ⟨e, hentry, hd⟩, -⟩ := h.visit_leads hr hs hg hv
  rw [List.append_cons] at hb
  refine ⟨fun hvd => ?_, fun hrest => ?_⟩
  · refine hb.kept names s (List.prefix_append _ _) (isDirectory_eq_true.mpr ⟨v.place, ?_⟩)
    rw [← hn, ← hpath, hentry, hd.mp hvd]
  · obtain ⟨directory, hb⟩ := hb.above hr hrest
    have hleads := hb.leads
    rw [← hn, ← hpath, hentry] at hleads
    cases hleads
    exact hd.mpr rfl

section Filling

variable {G : Place → Prop} {enter : Visit → Action Nat} (ht : t.Sound) (hr : ∀ s ∈ r, IsName s)
  (hs : t.Solid r) (hS : ShutOff t r fun p => sandbox r <+: p)

include ht hr hs hS

theorem copyMet_exact (he : Enters t r here names) (hu : Copy t r u)
    (hg : u.get? (here.place ++ [s]) = some entry)
    (henter : ∀ v G, Met t r v → v.isDirectory = true →
      ahead t (here :: outside) ⟨v.path, v.place⟩ < ahead t outside here →
      Step.Leads (Reached t r G) (enter v)
        (fun _ => Reached t r fun p => G p ∨ ∃ s, Due t r v.names s p) Ended) :
    Step.Leads (Reached t r G)
      ((ofPlace r).copyMet enter s (u.visit (here :: outside) here names (s, entry)))
      (fun _ => Reached t r fun p => G p ∨ Due t r names s p) Ended := by
  cases hv : u.visit (here :: outside) here names (s, entry) with
  | error cause => exact Step.leads_fail fun _ _ => nofun
  | ok v =>
    have hname : IsName s :=
      named_of_get? hu.sound (p := here.place ++ [s]) (by rw [hg]; exact nofun) s (by simp)
    have heu : Enters u r here names := ⟨he.path, (hu.belongs_iff hr hs hS).mpr he.belongs⟩
    obtain ⟨hpath, hn, ⟨e, hentry, hd⟩, hplace⟩ := heu.visit_leads hr hname hg hv
    have hmet : (v.isDirectory = true → isExcluded s = false) → Met t r v := by
      intro hx
      obtain ⟨hp, e, hb, hd⟩ := heu.visit_met hr hname hg hv hx
      exact ⟨hp, e, (hu.belongs_iff hr hs hS).mp hb, hd⟩
    have hne : v.names ≠ [] := by simp [hn]
    have hdue : ∀ rest place entry, Belongs t r (names ++ s :: rest) place entry →
        (v.isDirectory = true → isExcluded s = false) ∧ (rest ≠ [] → v.isDirectory = true) :=
      fun rest place entry hb =>
        heu.visit_due hr hname hg hv ((hu.belongs_iff hr hs hS).mpr hb)
    unfold copyMet
    dsimp only
    split
    · rename_i hvd
      split
      · rename_i hx
        refine Step.leads_pure fun w h => h.imp fun p hp => hp.resolve_right ?_
        rintro ⟨rest, place, entry, hb, -⟩
        rw [(hdue rest place entry hb).1 hvd] at hx
        cases hx
      · rename_i hx
        have hm := hmet fun _ => by simpa using hx
        refine (copyEntry_exact hr hs hS hm hne).bind fun _ =>
          (henter v _ hm hvd (hm.ahead_lt ht hvd hplace)).bind fun _ =>
            Step.leads_pure fun w h => h.imp ?_
        rintro p (hp | ⟨rest, place, entry, hb, rfl⟩)
        · exact .inl (.inl hp)
        · cases rest with
          | nil => exact .inl (.inr (by rw [hn]))
          | cons a rest =>
            rw [List.append_cons, ← hn] at hb ⊢
            exact .inr ⟨a, rest, place, entry, hb, rfl⟩
    · rename_i hvd
      refine (copyEntry_exact hr hs hS (hmet fun h => absurd h hvd) hne).weaken (fun _ h => h)
        (fun _ w h => h.imp ?_) fun _ _ h => h
      rintro p (hp | ⟨rest, place, entry, hb, rfl⟩)
      · exact .inl hp
      · have hrest : rest = [] := Classical.byContradiction fun hrest =>
          hvd ((hdue rest place entry hb).2 hrest)
        exact .inr (by rw [hn, hrest])

theorem copyListed_exact (he : Enters t r here names) {children : List (String × Entry)}
    (hc : ∀ child ∈ children, ∀ u, Copy t r u → u.get? (here.place ++ [child.1]) = some child.2)
    (henter : ∀ v G, Met t r v → v.isDirectory = true →
      ahead t (here :: outside) ⟨v.path, v.place⟩ < ahead t outside here →
      Step.Leads (Reached t r G) (enter v)
        (fun _ => Reached t r fun p => G p ∨ ∃ s, Due t r v.names s p) Ended) :
    Step.Leads (Reached t r G)
      ((ofPlace r).copyListed enter (here :: outside) here names children)
      (fun _ => Reached t r fun p => G p ∨ ∃ child ∈ children, Due t r names child.1 p) Ended := by
  induction children generalizing G with
  | nil =>
    refine Step.leads_pure fun w h => h.imp ?_
    rintro p (hp | ⟨_, hm, -⟩)
    · exact hp
    · cases hm
  | cons child children ih =>
    refine Step.Leads.bind (Step.leads_tree (Q := fun u w => Copy t r u ∧ Reached t r G w)
      fun _ h => ⟨h.1, h⟩) fun u => Step.leads_assume fun hu => ?_
    have hmet := copyMet_exact (G := G) ht hr hs hS he hu (hc child List.mem_cons_self u hu) henter
    refine hmet.bind fun _ => (ih fun c hm => hc c (List.mem_cons_of_mem _ hm)).bind fun _ =>
      Step.leads_pure fun w h => h.imp ?_
    rintro p (hp | ⟨c, hm, hd⟩)
    · exact .inl (.inl hp)
    · obtain rfl | hm := List.mem_cons.mp hm
      · exact .inl (.inr hd)
      · exact .inr ⟨c, hm, hd⟩

theorem copyBelow_exact {depth : Nat} (hdepth : ahead t outside here < depth)
    (he : Enters t r here names) :
    Step.Leads (Reached t r G) ((ofPlace r).copyBelow depth outside here names)
      (fun _ => Reached t r fun p => G p ∨ ∃ s, Due t r names s p) Ended := by
  induction depth generalizing outside here names G with
  | zero => exact absurd hdepth (Nat.not_lt_zero _)
  | succ depth ih =>
    refine Step.Leads.bind (Step.leads_tree (Q := fun u w => Copy t r u ∧ Reached t r G w)
      fun _ h => ⟨h.1, h⟩) fun u => Step.leads_assume fun hu => ?_
    have hc : ∀ child ∈ u.children here.place, ∀ u', Copy t r u' →
        u'.get? (here.place ++ [child.1]) = some child.2 := fun child hm u' hu' => by
      rw [hu.get?_child hu' hr hs hS he.belongs]
      exact (mem_children hu.single).mp hm
    refine (copyListed_exact ht hr hs hS he hc fun v G hm hvd hless =>
      ih (Nat.lt_of_lt_of_le hless (Nat.le_of_lt_succ hdepth)) (hm.enters hvd)).weaken
      (fun _ h => h) (fun _ w h => h.imp ?_) fun _ _ h => h
    rintro p (hp | ⟨s, rest, place, entry, hb, rfl⟩)
    · exact .inl hp
    · rw [List.append_cons] at hb
      have hs' : ∃ place entry, Belongs u r (names ++ [s]) place entry := by
        by_cases hrest : rest = []
        · rw [hrest, List.append_nil] at hb
          exact ⟨place, entry, (hu.belongs_iff hr hs hS).mpr hb⟩
        · obtain ⟨directory, hd⟩ := hb.above hr hrest
          exact ⟨directory, .directory, (hu.belongs_iff hr hs hS).mpr hd⟩
      obtain ⟨_, _, hbs⟩ := hs'
      have heu : Enters u r here names := ⟨he.path, (hu.belongs_iff hr hs hS).mpr he.belongs⟩
      obtain ⟨child, hg⟩ := Option.ne_none_iff_exists'.mp (heu.child hr hbs)
      rw [← List.append_cons] at hb
      exact .inr ⟨(s, child), (mem_children hu.single).mpr hg, rest, place, entry, hb, rfl⟩

end Filling

def fill (ws : Workspace) : Action Unit := do
  Step.log (.debug .workspace ("Copying " ++ ws.projectRoot ++ " into " ++ ws.root))
  Step.change ws.root fun t => t.makeDirectories ws.root
  let t ← Step.tree
  let place ← Step.inspect ws.projectRoot fun t => t.canonical [] ws.projectRoot
  let copied ← ws.copyBelow (t.walkDepth + mostNames) [] ⟨ws.projectRoot, place⟩ []
  Step.log (.debug .workspace ("Workspace ready with " ++ toString copied ++ " files"))

theorem create_eq (ws : Workspace) : ws.create = ws.cleanup >>= fun _ => ws.fill := rfl

theorem cleanup_cleared (ht : w.tree.Sound) (hr : ∀ s ∈ r, IsName s) (hs : w.tree.Solid r)
    (h : (ofPlace r).cleanup.run w = (.ok (), w')) : w'.tree = w.tree.prune (sandbox r) := by
  rw [run_cleanup] at h
  split at h
  · cases h
    exact removeAll_eq_ok (sandbox_ne_nil r) (named_sandbox hr)
      (fun p hp hn => (hs p (prefix_sandbox hp hn)).2) ‹_›
  · rename_i hn
    cases h
    exact (prune_free fun p hp =>
      removeAll_notFound ht (sandbox_ne_nil r) (named_sandbox hr) hn hp).symm
  · cases h

theorem belongs_nil (ht : t.Sound) (hr : ∀ s ∈ r, IsName s) (hs : t.Solid r)
    (hd : t.get? r = some .directory) : Belongs t r [] r .directory := by
  refine ⟨nofun, kept_nil, ?_⟩
  rw [List.append_nil, entryAt_eq_ok]
  exact (spot_text_directory ht hr fun p hp => (hs p hp).2).mpr ⟨rfl, hd⟩

theorem makeDirectories_sandbox (ht : t.Sound) (hr : ∀ s ∈ r, IsName s) (hs : t.Solid r)
    (hfree : t.get? (sandbox r) = none)
    (hm : t.makeDirectories (Place.text (sandbox r)) = .ok u) :
    t.get? r = some .directory ∧ u = t.put (sandbox r) .directory := by
  have hl : ∀ p, p <+: sandbox r → ¬ t.LinkAt p := by
    intro p hp
    by_cases he : p = sandbox r
    · rintro ⟨target, hl⟩
      rw [he, hfree] at hl
      cases hl
    · exact (hs p (prefix_sandbox hp he)).2
  have hput : t.get? r = some .directory →
      (t.put (sandbox r) .directory).get? (sandbox r) ≠ none ∧
        (t.put (sandbox r) .directory).Sound ∧
        ∀ p, p <+: sandbox r → ¬ (t.put (sandbox r) .directory).LinkAt p := by
    intro hd
    refine ⟨?_, ht.put (named_sandbox hr) hd (.inl rfl), fun p hp => ?_⟩
    · rw [get?_put _ _ _ _ (sandbox_ne_nil r), if_pos rfl]
      exact nofun
    · rintro ⟨target, hlink⟩
      rw [get?_put _ _ _ _ (sandbox_ne_nil r)] at hlink
      split at hlink
      · cases hlink
      · exact hl p hp ⟨target, hlink⟩
  have hmade := makeDirectories_made (sandbox_ne_nil r) (named_sandbox hr)
    (I := fun x => x = t ∨ t.get? r = some .directory ∧ x = t.put (sandbox r) .directory)
    ?_ ?_ hm (.inl rfl)
  · obtain ⟨rfl | h, hg⟩ := hmade
    · rw [hfree] at hg
      cases hg
    · exact h
  · rintro x (rfl | ⟨hd, rfl⟩)
    · exact ⟨ht, hl⟩
    · exact (hput hd).2
  · rintro x p s (rfl | ⟨hd, rfl⟩) hp hdir hg
    · obtain he | hp := List.prefix_concat_iff.mp hp
      · obtain ⟨rfl, hname⟩ := List.append_inj' he rfl
        cases hname
        exact .inr ⟨hdir, rfl⟩
      · exact absurd hg (hs _ hp).1
    · obtain ⟨hroot, hsound, -⟩ := hput hd
      by_cases he : p ++ [s] = sandbox r
      · exact absurd (he ▸ hg) hroot
      · rw [hsound.above hroot hp he] at hg
        cases hg

theorem canonical_root (ht : t.Sound) (hr : ∀ s ∈ r, IsName s) (hs : t.Solid r)
    (hd : t.get? r = some .directory) : t.canonical [] r.text = .ok r := by
  have h := (spot_text_directory ht hr fun p hp => (hs p hp).2).mpr ⟨rfl, hd⟩
  have h : t.spotFrom false [] r.text = .ok (.found r .directory) := h
  simp [canonical, h, bind, Except.bind, Spot.entry, pure, Except.pure]

theorem copy_start (ht : t.Sound) (ho : t.Single) (hr : ∀ s ∈ r, IsName s) (hs : t.Solid r)
    (hd : t.get? r = some .directory) (hfree : ∀ p, sandbox r <+: p → t.get? p = none) :
    Copy t r (t.put (sandbox r) .directory) where
  sound := ht.put (named_sandbox hr) hd (.inl rfl)
  single := ho.put
  rest := by
    rw [prune_put (List.prefix_refl _)]
    exact prune_free hfree
  root := by rw [get?_put _ _ _ _ (sandbox_ne_nil r), if_pos rfl]
  exact names entry hg := by
    rw [get?_put _ _ _ _ (sandbox_ne_nil r)] at hg
    split at hg
    · rename_i he
      cases hg
      rw [List.append_right_eq_self.mp he]
      exact ⟨r, belongs_nil ht hr hs hd⟩
    · rw [hfree _ (List.prefix_append _ _)] at hg
      cases hg

theorem fill_exact (ht : t.Sound) (ho : t.Single) (hr : ∀ s ∈ r, IsName s) (hs : t.Solid r)
    (hfree : ∀ p, sandbox r <+: p → t.get? p = none)
    (ha : Avoids t r fun p => sandbox r <+: p) :
    Step.Leads (fun w => w.tree = t) (ofPlace r).fill
      (fun _ w => Copy t r w.tree ∧ ∀ names place entry, Belongs t r names place entry →
        w.tree.get? (sandbox r ++ names) = some entry) Ended := by
  have hfree₀ := hfree _ (List.prefix_refl _)
  have hS := shutOff_sandbox (.inl hfree₀) ha
  refine Step.Leads.noted ?_ fun _ h => h
  refine Step.Leads.bind (Q := fun _ w => t.get? r = some .directory ∧
    w.tree = t.put (sandbox r) .directory) (Step.leads_change ?_ fun _ _ he _ =>
      ended_file he makeDirectories_ne_tooLong) fun _ => ?_
  · rintro u w hm rfl
    exact makeDirectories_sandbox ht hr hs hfree₀ hm
  refine Step.leads_assume fun hd => ?_
  refine Step.Leads.bind (Step.leads_tree (Q := fun u w => u = t.put (sandbox r) .directory ∧
    w.tree = t.put (sandbox r) .directory) fun _ h => ⟨h, h⟩) fun u => ?_
  refine Step.leads_assume ?_
  rintro rfl
  have hstart := copy_start ht ho hr hs hd hfree
  have hsolid := solid_refill hS hs fun _ hp => hstart.outside hp
  have hroot := canonical_root hstart.sound hr hsolid
    ((hstart.outside (sandbox_not_above (List.prefix_refl r))).trans hd)
  refine Step.Leads.bind (Q := fun place w => place = r ∧ w.tree = t.put (sandbox r) .directory)
    (Step.leads_inspect ?_ fun _ _ he _ => ended_file he canonical_ne_tooLong) fun place => ?_
  · intro place w hc hw
    rw [hw] at hc
    exact ⟨Except.ok.inj (hc.symm.trans hroot), hw⟩
  refine Step.leads_assume ?_
  rintro rfl
  have henters : Enters t place ⟨place.text, place⟩ [] :=
    ⟨by rw [List.append_nil], belongs_nil ht hr hs hd⟩
  have hdepth : ahead t [] ⟨place.text, place⟩ <
      (t.put (sandbox place) .directory).walkDepth + mostNames :=
    Nat.lt_add_right _ (Nat.lt_of_lt_of_le (ahead_start _) (walkDepth_put _ _ _))
  have hcopy := copyBelow_exact (G := fun p => p = sandbox place) ht hr hs hS hdepth henters
  refine Step.Leads.bind (hcopy.weaken (fun w hw => ?_) (fun _ _ h => h) fun _ _ h => h) fun _ =>
    Step.leads_note fun w h => ?_
  · rw [Reached, hw]
    refine ⟨hstart, ?_⟩
    rintro p rfl
    rw [hstart.root]
    exact nofun
  · obtain ⟨hcopy, hall⟩ := h
    refine ⟨hcopy, fun names location entry hb => ?_⟩
    have hg : w.tree.get? (sandbox place ++ names) ≠ none := by
      refine hall _ ?_
      cases names with
      | nil => exact .inl (List.append_nil _)
      | cons s rest => exact .inr ⟨s, rest, location, entry, hb, rfl⟩
    obtain ⟨entry', he⟩ := Option.ne_none_iff_exists'.mp hg
    obtain ⟨_, hb'⟩ := hcopy.exact names entry' he
    obtain ⟨-, rfl⟩ := hb.unique hb'
    exact he

theorem solid_prune (hs : t.Solid r) : (t.prune (sandbox r)).Solid r := by
  intro p hp
  have hg := get?_of_prune (u := t) rfl (sandbox_not_above hp)
  simp only [LinkAt, ← hg]
  exact hs p hp

theorem get?_prune_sandbox (hp : sandbox r <+: p) : (t.prune (sandbox r)).get? p = none := by
  rw [get?_prune _ _ _ (ne_nil_of_sandbox hp), if_pos hp]

theorem create_copies (ht : w.tree.Sound) (ho : w.tree.Single) (hr : ∀ s ∈ r, IsName s)
    (hs : w.tree.Solid r) (ha : Avoids (w.tree.prune (sandbox r)) r fun p => sandbox r <+: p) :
    Step.Leads (· = w) (ofPlace r).create
      (fun _ w' => Copy (w.tree.prune (sandbox r)) r w'.tree ∧ ∀ names place entry,
        Belongs (w.tree.prune (sandbox r)) r names place entry →
          w'.tree.get? (sandbox r ++ names) = some entry) Ended := by
  have hcleanup : Step.Leads (· = w) (ofPlace r).cleanup
      (fun _ w' => w'.tree = w.tree.prune (sandbox r)) Ended := by
    refine ⟨?_⟩
    rintro w₁ rfl
    rcases hrun : (ofPlace r).cleanup.run w₁ with ⟨e | _, w'⟩
    · rw [run_cleanup] at hrun
      split at hrun <;> cases hrun
      exact @ended_file _ _ _ _ w₁ ‹_› removeAll_ne_tooLong
    · exact cleanup_cleared ht hr hs hrun
  rw [create_eq]
  exact hcleanup.bind fun _ =>
    fill_exact ht.prune ho.prune hr (solid_prune hs) (fun _ hp => get?_prune_sandbox hp) ha

theorem create_copy (ht : w.tree.Sound) (ho : w.tree.Single) (hr : ∀ s ∈ r, IsName s)
    (hs : w.tree.Solid r) (ha : Avoids (w.tree.prune (sandbox r)) r fun p => sandbox r <+: p)
    (h : (ofPlace r).create.run w = (.ok (), w')) :
    Copy (w.tree.prune (sandbox r)) r w'.tree ∧
      ∀ names entry, w'.tree.get? (sandbox r ++ names) = some entry ↔
        ∃ place, Belongs (w.tree.prune (sandbox r)) r names place entry := by
  obtain ⟨hcopy, hall⟩ := (create_copies ht ho hr hs ha).of_ok rfl h
  refine ⟨hcopy, fun names entry => ⟨hcopy.exact names entry, ?_⟩⟩
  rintro ⟨place, hb⟩
  exact hall names place entry hb

theorem create_ends {e : Failure} (ht : w.tree.Sound) (ho : w.tree.Single)
    (hr : ∀ s ∈ r, IsName s) (hs : w.tree.Solid r)
    (ha : Avoids (w.tree.prune (sandbox r)) r fun p => sandbox r <+: p)
    (h : (ofPlace r).create.run w = (.error e, w')) (path : String) : e ≠ .file path .tooLong := by
  have hend := (create_copies ht ho hr hs ha).ending w rfl
  rw [h] at hend
  exact hend path

section Alike

variable {R : World → World → Prop}

theorem alike_copyEntry (hR : Step.Parallel R) (ws : Workspace) (v : Visit) :
    Step.Alike R R (ws.copyEntry v) := by
  unfold copyEntry
  split
  · exact (Step.alike_change hR _ _).bind fun _ => Step.alike_pure _
  · exact (Step.alike_change hR _ _).bind fun _ => Step.alike_pure _

theorem alike_copyBelow (hR : Step.Parallel R) (ws : Workspace) (depth : Nat)
    (outside : List Open) (here : Open) (names : List String) :
    Step.Alike R R (ws.copyBelow depth outside here names) :=
  copyBelow_kept (K := fun x => Step.Alike R R x) Step.alike_pure Step.alike_fail
    (Step.alike_tree hR) (fun hx hf => hx.bind hf) (alike_copyEntry hR ws)

theorem alike_fill (hR : Step.Parallel R) (ws : Workspace) : Step.Alike R R ws.fill :=
  (Step.alike_note hR _).bind fun _ => (Step.alike_change hR _ _).bind fun _ =>
    (Step.alike_tree hR).bind fun _ => (Step.alike_inspect hR _ _).bind fun _ =>
      (alike_copyBelow hR _ _ _ _ _).bind fun _ => Step.alike_note hR _

end Alike

theorem cleanup_directory (ht : w.tree.Sound) (hr : ∀ s ∈ r, IsName s)
    (hd : w.tree.get? (sandbox r) = some .directory) :
    ∃ w', (ofPlace r).cleanup.run w = (.ok (), w') ∧ w'.tree = w.tree.prune (sandbox r) := by
  have hs := spotOfLink_text (sandbox_ne_nil r) (named_sandbox hr)
    (fun p hp hn => ht.above (by rw [hd]; exact nofun) hp hn) hd
  have hremove : w.tree.removeAll (ofPlace r).root = .ok (w.tree.prune (sandbox r)) := by
    change w.tree.removeAll (sandbox r).text = _
    simp [removeAll, hs, bind, Except.bind, pure, Except.pure]
  rw [run_cleanup, hremove]
  exact ⟨_, rfl, rfl⟩

end Refit.Workspace
