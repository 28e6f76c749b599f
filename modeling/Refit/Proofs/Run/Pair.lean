import Refit.Proofs.Repair.Disk
import Refit.Proofs.Run.Course
import Refit.Proofs.Tree.Shape

namespace Refit.Run

open Refit.Path Refit.Tree Workspace

variable {t u : Tree} {p copy original r : Place} {path file text : String} {w w' : World}

/-- Nothing differs but the file at a place. -/
def AlikeBut (copy : Place) (t u : Tree) : Prop :=
  (∀ p, p ≠ copy → u.get? p = t.get? p) ∧ u.FileAt copy

theorem AlikeBut.sameShape (h : AlikeBut copy t u) (ht : t.FileAt copy) : SameShape t u := by
  intro p
  by_cases hp : p = copy
  · subst hp
    exact .inr ⟨ht, h.2⟩
  · exact .inl (h.1 p hp)

theorem AlikeBut.put {bytes : ByteArray} {runnable : Bool} (h : AlikeBut copy t u)
    (hne : copy ≠ []) : AlikeBut copy t (u.put copy (.file bytes runnable)) := by
  refine ⟨fun p hp => ?_, bytes, runnable, ?_⟩
  · rw [get?_put _ _ _ _ hne, if_neg hp]
    exact h.1 p hp
  · rw [get?_put _ _ _ _ hne, if_pos rfl]

theorem holds_put {bytes : ByteArray} {runnable : Bool} (hne : p ≠ []) :
    (t.put p (.file bytes runnable)).Holds p bytes :=
  ⟨runnable, by rw [get?_put _ _ _ _ hne, if_pos rfl]⟩

/-- A path to a file of the project and one to its copy; both hold the same text. -/
structure Paired (t : Tree) (path file : String) (copy original : Place) (text : String) :
    Prop where
  apart : original ≠ copy
  copy : t.LeadsTo path copy text.toUTF8
  original : t.LeadsTo file original text.toUTF8

theorem Paired.copyAt {bytes : ByteArray} (h : Paired t path file copy original text)
    (hu : AlikeBut copy t u) (hb : u.Holds copy bytes) : u.LeadsTo path copy bytes :=
  h.copy.sameShape (hu.sameShape h.copy.holds.fileAt) hb

theorem Paired.originalAt (h : Paired t path file copy original text) (hu : AlikeBut copy t u) :
    u.LeadsTo file original text.toUTF8 :=
  h.original.sameShape (hu.sameShape h.copy.holds.fileAt)
    (h.original.holds.congr (hu.1 original h.apart))

theorem Paired.writes (h : Paired t path file copy original text) (hu : AlikeBut copy t u)
    (bytes : ByteArray) : ∃ u', u.write path bytes = .ok u' ∧ AlikeBut copy t u' ∧
      u'.Holds copy bytes := by
  obtain ⟨old, hold⟩ := hu.2
  obtain ⟨runnable, hw⟩ := (h.copyAt hu hold).write bytes
  exact ⟨_, hw, hu.put h.copy.ne_nil, holds_put h.copy.ne_nil⟩

def Repairing (copy : Place) (w w' : World) : Prop :=
  AlikeBut copy w.tree w'.tree ∧ w.journal <+: w'.journal

theorem Repairing.note (h : Repairing copy w w') (e : Event) : Repairing copy w (w'.note e) :=
  ⟨h.1, h.2.trans (List.prefix_append _ _)⟩

theorem Paired.keeps {checker : Repair.Checker} (h : Paired w.tree path file copy original text)
    (hc : ∀ history t, (checker.check history t).2.2 = t) :
    Repair.Keeps checker path (Repairing copy w) where
  notes _ _ hr := ⟨hr.1, hr.2.trans (List.prefix_append _ _)⟩
  write w' u text hr hw := by
    obtain ⟨u', hw', hu, -⟩ := h.writes hr.1 text.toUTF8
    rw [hw] at hw'
    cases hw'
    exact ⟨hu, hr.2⟩
  check w' hr := by
    refine ⟨?_, hr.2.trans (List.prefix_append _ _)⟩
    rw [hc]
    exact hr.1

/-- The file of the project and its copy hold the same text again, and nothing else differs. -/
structure Settled (t u : Tree) (copy original : Place) (text : String) : Prop where
  elsewhere : ∀ p, p ≠ copy → p ≠ original → u.get? p = t.get? p
  copy : u.Holds copy text.toUTF8
  original : u.Holds original text.toUTF8

theorem Settled.sameShape {final : String} (h : Settled t u copy original final)
    (hc : t.FileAt copy) (ho : t.FileAt original) : SameShape t u := by
  intro p
  by_cases hp : p = copy
  · subst hp
    exact .inr ⟨hc, h.copy.fileAt⟩
  · by_cases hq : p = original
    · subst hq
      exact .inr ⟨ho, h.original.fileAt⟩
    · exact .inl (h.elsewhere p hp hq)

section Promote

open Promotion

variable {draft : Draft} {gate : Gate} {answerer : Answerer}

theorem save_settles (h : Paired w.tree draft.path file copy original text) (name : String) :
    Step.Leads (fun w' => Repairing copy w w' ∧ w'.tree.Holds copy draft.content.toUTF8)
      (Promotion.save draft file name)
      (fun _ w' => w.journal <+: w'.journal ∧
        Settled w.tree w'.tree copy original draft.content) fun _ _ => False := by
  unfold Promotion.save
  refine Step.Leads.noted ?_ fun _ hw => ⟨hw.1.note _, hw.2⟩
  refine Step.Leads.bind (Step.leads_change_ok (Q := fun _ w' => w.journal <+: w'.journal ∧
    Settled w.tree w'.tree copy original draft.content) fun w' hw => ?_) fun _ => ?_
  · obtain ⟨⟨halike, hj⟩, hholds⟩ := hw
    obtain ⟨runnable, hc⟩ := (h.copyAt halike hholds).copy (h.originalAt halike) h.apart
    have hne := h.original.ne_nil
    refine ⟨_, hc, hj, fun p hp ho => ?_, ?_, holds_put hne⟩
    · change (w'.tree.put original _).get? p = _
      rw [get?_put _ _ _ _ hne, if_neg ho]
      exact halike.1 p hp
    · exact hholds.congr (by rw [get?_put _ _ _ _ hne, if_neg h.apart.symm])
  · exact Step.Leads.noted (Step.leads_pure fun _ hw => hw) fun _ hw =>
      ⟨hw.1.trans (List.prefix_append _ _), hw.2⟩

theorem promote_settles (h : Paired w.tree draft.path file copy original text)
    (hg : gate.dryRun = false ∧ gate.autoApprove = true) :
    Step.Leads (fun w' => Repairing copy w w' ∧
        (w'.tree = w.tree ∨ w'.tree.readText draft.path = .ok draft.content))
      (Promotion.promote gate answerer draft file)
      (fun decision w' => w.journal <+: w'.journal ∧
        ∃ final, Settled w.tree w'.tree copy original final ∧
          (decision = .promoted → final = draft.content)) fun _ _ => False := by
  unfold Promotion.promote
  refine Step.Leads.bind (Step.leads_inspect_ok (Q := fun current w' => current = text ∧
    Repairing copy w w' ∧
      (w'.tree = w.tree ∨ w'.tree.readText draft.path = .ok draft.content))
    fun w' hw => ⟨text, (h.originalAt hw.1.1).readText, rfl, hw⟩) fun current => ?_
  refine Step.leads_assume fun hcurrent => ?_
  subst hcurrent
  split
  · refine Step.Leads.bind (Step.leads_change_ok (Q := fun _ w' => Repairing copy w w' ∧
      w'.tree.Holds copy draft.content.toUTF8) fun w' hw => ?_) fun _ => ?_
    · obtain ⟨u', hw', halike, hholds⟩ := h.writes hw.1.1 draft.content.toUTF8
      exact ⟨u', hw', ⟨halike, hw.1.2⟩, hholds⟩
    refine Step.Leads.noted ?_ fun _ hw => ⟨hw.1.note _, hw.2⟩
    unfold Promotion.decide
    rw [if_neg (by simp [hg.1]), if_pos hg.2]
    exact (save_settles h _).weaken (fun _ hw => hw)
      (fun _ _ hw => ⟨hw.1, draft.content, hw.2, fun _ => rfl⟩) fun _ _ hw => hw
  · rename_i hsame
    have hsame : draft.content = current := by simpa [Draft.changedFrom] using hsame
    refine Step.leads_pure fun w' hw => ⟨hw.1.2, current, ?_, nofun⟩
    have horiginal := (h.originalAt hw.1.1).holds
    obtain ⟨⟨halike, -⟩, ht | hread⟩ := hw
    · rw [ht] at horiginal ⊢
      exact ⟨fun _ _ _ => rfl, h.copy.holds, horiginal⟩
    · refine ⟨fun p hp _ => halike.1 p hp, ?_, horiginal⟩
      obtain ⟨old, hold⟩ := halike.2
      have hl := h.copyAt halike hold
      have hr := readText_eq_ok hread
      rw [hl.read, hsame] at hr
      cases hr
      exact hl.holds

end Promote

/-- A build has passed on a tree in which only the copy differs from the tree before; the journal
tells of it. -/
structure Passed (checker : Repair.Checker) (w w' : World) (copy : Place) (text : String)
    (built : World) : Prop where
  outcome : (checker.check built.journal built.tree).1 = .success
  repairing : Repairing copy w built
  told : built.journal ++ (checker.check built.journal built.tree).2.1 <+: w'.journal
  holds : built.tree.Holds copy text.toUTF8

theorem Passed.mono {checker : Repair.Checker} {built w'' : World}
    (h : Passed checker w w' copy text built) (hj : w'.journal <+: w''.journal) :
    Passed checker w w'' copy text built :=
  ⟨h.outcome, h.repairing, h.told.trans hj, h.holds⟩

theorem job_promote_settles {job : Job} {draft : Draft}
    (h : Paired w.tree draft.path file copy original text)
    (hg : job.gate.dryRun = false ∧ job.gate.autoApprove = true) :
    Step.Leads (fun w' => Repairing copy w w' ∧
        (w'.tree = w.tree ∨ w'.tree.readText draft.path = .ok draft.content))
      (job.promote draft file)
      (fun decision w' => w.journal <+: w'.journal ∧
        ∃ final, Settled w.tree w'.tree copy original final ∧
          (decision = .promoted → final = draft.content)) fun _ _ => False := by
  unfold Job.promote
  refine Step.Leads.bind (promote_settles h hg) fun decision => ?_
  split
  · exact Step.Leads.noted (Step.leads_pure fun _ hw => hw) fun _ hw =>
      ⟨hw.1.trans (List.prefix_append _ _), hw.2⟩
  · exact Step.leads_pure fun _ hw => hw

section Process

variable {around : Surroundings} {order : Order} {job : Job}

structure Repaired (job : Job) (w : World) (path : String) (copy : Place)
    (repaired : Repair.Session × Repair.Status) (w' : World) : Prop where
  draft_path : repaired.1.draft.path = path
  repairing : Repairing copy w w'
  onDisk : w'.tree = w.tree ∨ w'.tree.readText path = .ok repaired.1.draft.content
  notNeeded : repaired.2 = .notNeeded → w'.tree = w.tree
  verified : ∀ n, repaired.2 = .verified n →
    ∃ built, Passed job.team.checker w w' copy repaired.1.draft.content built

theorem Repaired.note {repaired : Repair.Session × Repair.Status}
    (h : Repaired job w path copy repaired w') (e : Event) :
    Repaired job w path copy repaired (w'.note e) where
  draft_path := h.draft_path
  repairing := h.repairing.note e
  onDisk := h.onDisk
  notNeeded := h.notNeeded
  verified n hn := by
    obtain ⟨built, hp⟩ := h.verified n hn
    exact ⟨built, hp.mono (List.prefix_append _ _)⟩

theorem repair_settles {d : Draft} (h : Paired w.tree d.path file copy original d.content)
    (hc : ∀ history t, (job.team.checker.check history t).2.2 = t) :
    Step.Leads (fun w' => w' = w) (job.repair d) (Repaired job w d.path copy) fun _ _ => False := by
  have hkeeps := h.keeps hc
  have hstart : Repairing copy w w := ⟨⟨fun _ _ => rfl, h.copy.holds.fileAt⟩, List.prefix_refl _⟩
  refine ⟨fun w' hw => ?_⟩
  subst hw
  obtain ⟨status, hs⟩ := Repair.run_ok hkeeps (fun u text hu => by
    obtain ⟨t, ht, -⟩ := h.writes hu.1 text.toUTF8
    exact ⟨t, ht⟩) hstart
  change Step.Ending _ _ ((Repair.run job.team d w').status.map fun status =>
    ((Repair.run job.team d w').session, status), (Repair.run job.team d w').session.world)
  rw [hs]
  refine ⟨(Repair.run_kept job.team d w').1, Repair.run_keeps hkeeps hstart,
    Repair.run_onDisk hs hc, ?_, ?_⟩
  · intro hn
    change status = .notNeeded at hn
    rw [hn] at hs
    exact congrArg World.tree (Repair.run_notNeeded hs)
  · intro n hn
    change status = .verified n at hn
    rw [hn] at hs
    obtain ⟨built, hi, houtcome, hread, htold⟩ := Repair.run_verified hs hkeeps hstart
    obtain ⟨old, hold⟩ := hi.1.2
    have hl := h.copyAt hi.1 hold
    have hr := readText_eq_ok hread
    rw [hl.read] at hr
    cases hr
    exact ⟨built, houtcome, hi, htold, hl.holds⟩

def Finished (job : Job) (w : World) (copy original : Place) (result : FileResult) (w' : World) :
    Prop :=
  ∃ final, Settled w.tree w'.tree copy original final ∧
    ∀ n, result = .done (.verified n) .promoted →
      ∃ built, Passed job.team.checker w w' copy final built

theorem repaired_settles {d : Draft} {session : Repair.Session} {status : Repair.Status}
    (h : Paired w.tree d.path file copy original d.content)
    (hg : job.gate.dryRun = false ∧ job.gate.autoApprove = true) :
    Step.Leads (Repaired job w d.path copy (session, status)) (job.promote session.draft file)
      (fun decision => Finished job w copy original (.done status decision))
      fun _ _ => False := by
  refine ⟨fun w' hw => ?_⟩
  have hpair : Paired w.tree session.draft.path file copy original d.content := by
    rw [hw.draft_path]
    exact h
  have hdisk := hw.onDisk
  rw [← hw.draft_path] at hdisk
  have hpromote := @job_promote_settles copy original file d.content ⟨w.tree, w'.journal⟩ job
    session.draft hpair hg
  have hended := hpromote.ending w' ⟨⟨hw.repairing.1, List.prefix_refl _⟩, hdisk⟩
  refine hended.imp ?_ fun _ _ he => he
  rintro decision w'' ⟨hjournal, final, hsettled, hfinal⟩
  refine ⟨final, hsettled, fun n hn => ?_⟩
  cases hn
  obtain ⟨built, hpassed⟩ := hw.verified n rfl
  rw [hfinal rfl]
  exact ⟨built, hpassed.mono hjournal⟩

theorem migrate_settles (hj : job.Fits around order r)
    (hc : ∀ history t, (job.team.checker.check history t).2.2 = t)
    (hsave : order.dryRun = false ∧ order.autoApprove = true)
    (hpair : ∀ path d, (ofPlace r).mapPath file = .ok path → Draft.load w.tree path = .ok d →
      ∃ rel, Paired w.tree d.path file (sandbox r ++ rel) (r ++ rel) d.content) :
    Step.Leads (fun w' => w' = w) (job.migrate file)
      (fun result w' => ∃ rel, w.tree.FileAt (sandbox r ++ rel) ∧
        Finished job w (sandbox r ++ rel) (r ++ rel) result w')
      fun _ w' => w'.tree = w.tree := by
  unfold Job.migrate
  refine Step.Leads.bind (Q := fun path w' => (ofPlace r).mapPath file = .ok path ∧ w' = w)
    (Step.leads_ofExcept ?_ fun _ w' _ hw => congrArg World.tree hw) fun path => ?_
  · intro path w' hp hw
    rw [hj.workspace] at hp
    exact ⟨hp, hw⟩
  refine Step.leads_assume fun hpath => ?_
  refine Step.Leads.bind (Step.leads_tree (Q := fun u w' => u = w.tree ∧ w' = w)
    fun w' hw => ⟨congrArg World.tree hw, hw⟩) fun u => ?_
  refine Step.leads_assume fun hu => ?_
  subst hu
  refine Step.Leads.bind (Q := fun d w' => Draft.load w.tree path = .ok d ∧ w' = w)
    (Step.leads_ofExcept (fun _ _ hd hw => ⟨hd, hw⟩) fun _ w' _ hw => congrArg World.tree hw)
    fun d => ?_
  refine Step.leads_assume fun hd => ?_
  obtain ⟨rel, h⟩ := hpair path d hpath hd
  refine Step.Leads.bind ((repair_settles h hc).weaken (fun _ hw => hw) (fun _ _ hw => hw)
    fun _ _ hw => hw.elim) fun repaired => ?_
  obtain ⟨session, status⟩ := repaired
  refine Step.Leads.noted (Step.Leads.noted ?_ fun _ hw => hw.note _) fun _ hw => hw.note _
  split
  · rename_i hn
    refine Step.leads_pure fun w' hw => ⟨rel, h.copy.holds.fileAt, d.content, ?_, nofun⟩
    rw [hw.notNeeded hn]
    exact ⟨fun _ _ _ => rfl, h.copy.holds, h.original.holds⟩
  · refine Step.Leads.bind ((repaired_settles h (by rw [hj.gate]; exact hsave)).weaken
      (fun _ hw => hw) (fun _ _ hw => hw) fun _ _ hw => hw.elim) fun decision => ?_
    exact Step.leads_pure fun w' hw => ⟨rel, h.copy.holds.fileAt, hw⟩

end Process

end Refit.Run
