import Refit.Proofs.Run.Loop
import Refit.Proofs.Run.Pair
import Refit.Proofs.Workspace.Copied

/-!
The sandbox mirrors the project: after every file of a run that may save without asking, both hold
the same bytes in every file that was copied (`processed_mirrored`). So a file that is promoted as
verified leaves the project as the sandbox was when its build passed.
-/

namespace Refit.Run

open Refit.Path Refit.Tree Workspace

variable {t u v : Tree} {q r rel : Place} {path : String} {w w' : World}

structure Mirrored (r : Place) (u v : Tree) : Prop where
  shape : SameShape u v
  equal : ∀ names, u.FileAt (sandbox r ++ names) →
    ∃ bytes, v.Holds (sandbox r ++ names) bytes ∧ v.Holds (r ++ names) bytes

theorem mirrored_of_copied (h : Copied t r u) : Mirrored r u u where
  shape := sameShape_refl u
  equal := by
    rintro names ⟨bytes, hf⟩
    exact ⟨bytes, hf, (h.files names bytes hf).2⟩

theorem Mirrored.paired {d : Draft} (h : Mirrored r u v) (hu : Copied t r u) (ht : t.Sound)
    (hl : t.Unlinked r) (hr : ∀ s ∈ r, IsName s) (hq : ∀ s ∈ q, IsName s)
    (hp : (ofPlace r).mapPath q.text = .ok path) (hd : Draft.load v path = .ok d) :
    ∃ rel, Paired v d.path q.text (sandbox r ++ rel) (r ++ rel) d.content := by
  obtain ⟨rfl, -, hread⟩ := load_eq_ok hd
  obtain ⟨rel, rfl, hspells⟩ := mapPath_eq_ok hr (spells_text hq) hp
  obtain ⟨p, hcopy⟩ := leadsTo_of_readText hread
  obtain ⟨runnable, hspot⟩ := hcopy
  have hstraight : ∀ p, p <+: sandbox r ++ rel → ¬ v.LinkAt p := fun p hp => by
    rw [sandbox_append] at hp
    exact h.shape.not_linkAt ((hu.fresh.unlinkedRoot hl).not_linkAt hp)
  obtain rfl := spot_straight hspells hstraight hspot rfl
  have hcopy : v.LeadsTo d.path (sandbox r ++ rel) d.content.toUTF8 := ⟨runnable, hspot⟩
  have hfile : u.FileAt (sandbox r ++ rel) := h.shape.fileAt.mp hcopy.holds.fileAt
  obtain ⟨bytes, hb, horiginal⟩ := h.equal rel hfile
  obtain rfl := hcopy.holds.unique hb
  obtain ⟨runnable', hg⟩ := horiginal
  refine ⟨rel, (sandbox_append_ne r rel).symm, hcopy, runnable', ?_⟩
  refine spot_text ?_ hq (fun p hp hn => ?_) hg nofun
  · intro he
    obtain ⟨-, rfl⟩ := List.append_eq_nil_iff.mp he
    rw [List.append_nil] at hfile
    exact hu.noFile hfile
  · have hdir := hu.original ht hfile hp hn
    obtain hv | ⟨⟨_, _, hf⟩, -⟩ := h.shape p
    · rw [hv, hdir]
    · rw [hdir] at hf
      cases hf

theorem Mirrored.settled {final : String} (h : Mirrored r u t) (hu : Copied v r u)
    (hrel : u.FileAt (sandbox r ++ rel)) {t' : Tree}
    (hs : Settled t t' (sandbox r ++ rel) (r ++ rel) final) : Mirrored r u t' where
  shape := by
    obtain ⟨bytes, hc, ho⟩ := h.equal rel hrel
    exact h.shape.trans (hs.sameShape hc.fileAt ho.fileAt)
  equal names hn := by
    by_cases he : names = rel
    · subst he
      exact ⟨_, hs.copy, hs.original⟩
    · obtain ⟨⟨h₁, h₂⟩, h₃, h₄⟩ := hu.apart hn hrel he
      obtain ⟨bytes, hc, ho⟩ := h.equal names hn
      exact ⟨bytes, hc.congr (hs.elsewhere _ h₁ h₂), ho.congr (hs.elsewhere _ h₃ h₄)⟩

/-- A build has passed between two worlds, and in every file that was copied the project now holds
what the sandbox held then. -/
structure Verified (checker : Repair.Checker) (r : Place) (u : Tree) (w w' built : World) :
    Prop where
  outcome : (checker.check built.journal built.tree).1 = .success
  since : w.journal <+: built.journal
  told : built.journal ++ (checker.check built.journal built.tree).2.1 <+: w'.journal
  equal : ∀ names, u.FileAt (sandbox r ++ names) →
    ∃ bytes, built.tree.Holds (sandbox r ++ names) bytes ∧ w'.tree.Holds (r ++ names) bytes

theorem Mirrored.verified {final : String} {built : World} {checker : Repair.Checker}
    (h : Mirrored r u w.tree) (hu : Copied v r u) (hrel : u.FileAt (sandbox r ++ rel))
    (hs : Settled w.tree w'.tree (sandbox r ++ rel) (r ++ rel) final)
    (hb : Passed checker w w' (sandbox r ++ rel) final built) :
    Verified checker r u w w' built where
  outcome := hb.outcome
  since := hb.repairing.2
  told := hb.told
  equal names hn := by
    by_cases he : names = rel
    · subst he
      exact ⟨_, hb.holds, hs.original⟩
    · obtain ⟨⟨h₁, -⟩, h₃, h₄⟩ := hu.apart hn hrel he
      obtain ⟨bytes, hc, ho⟩ := h.equal names hn
      exact ⟨bytes, hc.congr (hb.repairing.1.1 _ h₁), ho.congr (hs.elsewhere _ h₃ h₄)⟩

section Whole

variable {around : Surroundings} {order : Order} {job : Job}

theorem process_mirrored (hj : job.Fits around order r)
    (hc : ∀ history t, (job.team.checker.check history t).2.2 = t)
    (hsave : order.dryRun = false ∧ order.autoApprove = true) (hu : Copied t r u) (ht : t.Sound)
    (hl : t.Unlinked r) (hr : ∀ s ∈ r, IsName s) (hq : ∀ s ∈ q, IsName s)
    (h : Mirrored r u w.tree) {result : FileResult}
    (hrun : (job.process q.text (ε := RunError)).run w = (.ok result, w')) :
    Mirrored r u w'.tree ∧ ∀ n, result = .done (.verified n) .promoted →
      ∃ built, Verified job.team.checker r u w w' built := by
  have hended := (migrate_settles hj hc hsave fun path d hp hd =>
    h.paired hu ht hl hr hq hp hd).ending w rfl
  rw [Job.run_process] at hrun
  rcases hm : (job.migrate q.text).run w with ⟨_ | _, v⟩ <;> rw [hm] at hrun hended <;> cases hrun
  · refine ⟨?_, nofun⟩
    have hv : v.tree = w.tree := hended
    change Mirrored r u v.tree
    rw [hv]
    exact h
  · obtain ⟨rel, hf, final, hs, hverified⟩ := hended
    have hrel := h.shape.fileAt.mp hf
    refine ⟨h.settled hu hrel hs, fun n hn => ?_⟩
    obtain ⟨built, hb⟩ := hverified n hn
    exact ⟨built, h.verified hu hrel hs hb⟩

theorem after_mirrored (hj : job.Fits around order r)
    (hc : ∀ history t, (job.team.checker.check history t).2.2 = t)
    (hsave : order.dryRun = false ∧ order.autoApprove = true) (hu : Copied t r u) (ht : t.Sound)
    (hl : t.Unlinked r) (hr : ∀ s ∈ r, IsName s) {files : List String}
    (hf : ∀ file ∈ files, ∃ q : Place, (∀ s ∈ q, IsName s) ∧ file = q.text)
    (h : Mirrored r u w.tree) : Mirrored r u (job.after w files).tree := by
  induction files generalizing w with
  | nil => exact h
  | cons file files ih =>
    obtain ⟨q, hq, rfl⟩ := hf file List.mem_cons_self
    obtain ⟨result, hrun⟩ := job.process_ok q.text w
    exact ih (fun file hm => hf file (List.mem_cons_of_mem _ hm))
      (process_mirrored hj hc hsave hu ht hl hr hq h hrun).1

end Whole

/-- After each file of a run that may save without asking, the sandbox and the project hold the same
bytes in every file that was copied. When a file is promoted as verified, the project holds there
what the sandbox held when the build was run that has passed. -/
theorem processed_mirrored (around : Surroundings) (order : Order) (w : World) (ht : w.tree.Sound)
    (hl : ∀ r, sandboxOf around order w.tree = some (sandbox r) → ∀ p, r <+: p → ¬ w.tree.LinkAt p)
    (hd : ∀ s ∈ around.directory, IsName s)
    (htools : ∀ history t program root arguments,
      (around.tools history t program root arguments).tree = t)
    (hsave : order.dryRun = false ∧ order.autoApprove = true) {p : Plan} {job : Job}
    {w₁ w₂ : World} (hplan : (plan around order).run w = (.ok p, w₁))
    (hjob : (setUp around order p).run w₁ = (.ok job, w₂)) :
    ∃ r, sandboxOf around order w.tree = some (sandbox r) ∧
      (∃ done, done <+: p.files ∧
        ((migrateAll job p.files.length {} p.files).run w₂).2.tree = (job.after w₂ done).tree) ∧
      (∀ done, done <+: p.files → ∀ names, w₂.tree.FileAt (sandbox r ++ names) →
        ∃ bytes, (job.after w₂ done).tree.Holds (sandbox r ++ names) bytes ∧
          (job.after w₂ done).tree.Holds (r ++ names) bytes) ∧
      ∀ done file n w₃, done ++ [file] <+: p.files →
        (job.process file (ε := RunError)).run (job.after w₂ done) =
          (.ok (.done (.verified n) .promoted), w₃) →
        ∃ built, Verified job.team.checker r w₂.tree (job.after w₂ done) w₃ built := by
  obtain ⟨⟨place, hfits⟩, hsame⟩ := plan_leads.of_ok (rfl : Same w.tree w) hplan
  have hunlinked : ∀ {r}, w.tree.canonical [] p.root = .ok r → w.tree.Solid r →
      w.tree.Unlinked r := fun hc hs => hs.unlinked (hl _ (sandboxOf_eq hfits hc))
  obtain ⟨r, ⟨hc, hs, hr, hj⟩, hu⟩ := (setUp_leads (I := Copied w.tree)
    (fun r hc hs hr => copied_made (hunlinked hc hs) hr) ht).of_ok hsame hjob
  have hl := hunlinked hc hs
  have hchecker : ∀ history t, (job.team.checker.check history t).2.2 = t := by
    intro history t
    obtain ⟨b, hb⟩ := hj.checker
    rw [hb]
    obtain h | ⟨program, arguments, h⟩ := b.check_tree around.tools history t
    · exact h
    · exact h.trans (htools history t program b.root arguments)
  have hfiles := Sources.collect_eq_ok ht.named (canonical_passed w.tree.passed_names hd
    hfits.canonical) hfits.files
  have hafter : ∀ done, done <+: p.files → Mirrored r w₂.tree (job.after w₂ done).tree :=
    fun done hp => after_mirrored hj hchecker hsave hu ht hl hr
      (fun file hm => hfiles file (hp.subset hm)) (mirrored_of_copied hu)
  refine ⟨r, sandboxOf_eq hfits hc, ?_, fun done hp names hn => (hafter done hp).equal names hn, ?_⟩
  · obtain ⟨done, summary, hp, -, hw⟩ := migrateAll_after job p.files.length {} p.files w₂
    refine ⟨done, hp, ?_⟩
    rcases hw with hw | hw <;> rw [hw]
    rfl
  · intro done file n w₃ hp hrun
    obtain ⟨q, hq, rfl⟩ := hfiles file (hp.subset (by simp))
    exact (process_mirrored hj hchecker hsave hu ht hl hr hq
      (hafter done ((List.prefix_append done _).trans hp)) hrun).2 n rfl

def hasFile (t : Tree) (p : Place) : Bool :=
  match t.get? p with
  | some (.file ..) => true
  | _ => false

theorem fileAt_of_hasFile {p : Place} (h : hasFile t p = true) : t.FileAt p := by
  unfold hasFile at h
  split at h
  · exact ⟨_, _, ‹_›⟩
  · cases h

theorem processed_mirrored_trio : ∃ (job : Job) (w w₁ : World) (n : Nat) (built : World),
    (job.process "/A.java" (ε := RunError)).run w = (.ok (.done (.verified n) .promoted), w₁) ∧
      Verified job.team.checker [] w.tree w w₁ built ∧
      w.tree.FileAt [".modernizer_sandbox", "A.java"] ∧
      ∃ bytes, (job.after w ["/A.java", "/B.java", "/C.java"]).tree.Holds
          [".modernizer_sandbox", "A.java"] bytes ∧
        (job.after w ["/A.java", "/B.java", "/C.java"]).tree.Holds ["A.java"] bytes := by
  obtain ⟨p, w₁, job, w₂, a, _, _, w₃, _, _, _, hplan, hfiles, hjob, hran, -, -, -, ha, -, -, -⟩ :=
    trio_course
  obtain ⟨n, rfl⟩ := FileResult.isVerified_iff.mp ha
  obtain ⟨r, hr, -, hmirror, hverified⟩ := processed_mirrored attended wholeOrder ⟨trioTree, []⟩
    trioTree_sound (fun _ _ p _ => trioTree_linkFree p) nofun (fun _ _ _ _ _ => rfl) ⟨rfl, rfl⟩
    hplan hjob
  rw [sandboxOf_trio] at hr
  obtain rfl : [] = r := List.append_cancel_right (Option.some.inj hr)
  rw [hfiles] at hmirror hverified
  obtain ⟨built, hbuilt⟩ := hverified [] "/A.java" n w₃ ⟨["/B.java", "/C.java"], rfl⟩ hran
  have hfile : w₂.tree.FileAt [".modernizer_sandbox", "A.java"] := by
    have hcopied : (planFor attended ["/A.java", "/B.java", "/C.java"] >>=
        setUp attended wholeOrder).succeeds
          (fun _ w => hasFile w.tree [".modernizer_sandbox", "A.java"]) ⟨trioTree, []⟩ = true := by
      decide +kernel
    obtain ⟨_, w, hw, hcopied⟩ := Step.exists_of_succeeds hcopied
    rw [Step.run_bind, ← plan_trio, hplan] at hw
    obtain ⟨-, rfl⟩ := Prod.mk.inj (hjob.symm.trans hw)
    exact fileAt_of_hasFile hcopied
  exact ⟨job, w₂, w₃, n, built, hran, hbuilt, hfile,
    hmirror _ (List.prefix_refl _) ["A.java"] hfile⟩

end Refit.Run
