import Refit.Proofs.Repair.Passed
import Refit.Proofs.Run.Reports

/-!
The line about files that were changed without a passing build. Where every unverified file has come
to be shown, its number is that of the files for which a rewrite was asked for, whose draft was not
as the file on the disk, and for which no build of that draft has passed (`migrate_unverified`).
Files to which the rules alone were applied are left out, although no build of them was made
(`migrate_uncounted`).
-/

namespace Refit

open Refit.Tree

def Event.unverified? : Event → Option Nat
  | .notice (.summary s _) => if 0 < s.unverified then some s.unverified else none
  | _ => none

def Terminal.Display.showUnverified (d : Terminal.Display) (n : Nat) : List String :=
  if 0 < n then
    ["  " ++ d.paint .yellow (toString n) ++ " file(s) were changed without a passing build"]
  else []

theorem Terminal.textOf_append (a b : List String) :
    Terminal.textOf (a ++ b) = Terminal.textOf a ++ Terminal.textOf b := by
  simp [Terminal.textOf]

theorem Terminal.Display.showSummary_eq (d : Terminal.Display) (s : Run.Summary) (dryRun : Bool) :
    ∃ counted, d.showSummary s dryRun = counted ++ d.showUnverified s.unverified :=
  ⟨["", _], rfl⟩

theorem Event.unverified?_of_open {e : Event} (h : e.isClosing = false) : e.unverified? = none := by
  cases e with
  | notice n => cases n <;> first | rfl | cases h
  | _ => rfl

theorem Event.unverified?_of_isPreparing {e : Event} (h : e.isPreparing = true) :
    e.unverified? = none := unverified?_of_open (@isAside_of_isPreparing [] e h).1

namespace Promotion

variable {gate : Gate} {answerer : Answerer} {draft : Draft} {file : String} {w : World}
  {decision : Decision}

theorem Gate.verdict_ne_unchanged (answer : Bool) : gate.verdict answer ≠ .unchanged := by
  unfold Gate.verdict
  split
  · exact nofun
  · split <;> exact nofun

theorem promote_decides (h : ((promote gate answerer draft file).run w).1 = .ok decision) :
    ∃ current, w.tree.readText file = .ok current ∧
      (decision = .unchanged ↔ draft.content = current) := by
  rw [run_promote] at h
  cases hr : w.tree.readText file with
  | error cause =>
    rw [hr] at h
    cases h
  | ok current =>
    refine ⟨current, rfl, ?_⟩
    rw [hr] at h
    dsimp only at h
    by_cases hc : draft.content = current
    · rw [if_pos hc] at h
      cases h
      exact ⟨fun _ => hc, fun _ => rfl⟩
    · rw [if_neg hc] at h
      have hne : decision ≠ .unchanged := by
        cases hw : w.tree.write draft.path draft.content.toUTF8 with
        | error cause =>
          rw [hw] at h
          cases h
        | ok t =>
          rw [hw] at h
          dsimp only at h
          rw [run_decide] at h
          have hv := @Gate.verdict_ne_unchanged gate
            (answerer (w.journal ++ [review draft file current]) (question file))
          cases hd : gate.verdict
              (answerer (w.journal ++ [review draft file current]) (question file)) with
          | promoted =>
            rw [hd] at h
            dsimp only at h
            rw [run_save] at h
            split at h <;> cases h
            exact nofun
          | declined =>
            rw [hd] at h
            cases h
            exact nofun
          | dryRun =>
            rw [hd] at h
            cases h
            exact nofun
          | unchanged => exact absurd hd hv
      exact ⟨fun hd => absurd hd hne, fun hd => absurd hd hc⟩

end Promotion

namespace Run

variable {around : Surroundings} {order : Order} {job : Job} {p : Plan} {w w₁ w₂ w₃ : World}
  {file : String} {draft : Draft} {result : FileResult} {done : List (String × FileResult)}
  {rest : List String}

/-- A file has come to its promotion with a draft that is not as the file on the disk. -/
def Job.Changes (job : Job) (w : World) (file : String) (draft : Draft) : Prop :=
  ∃ path status current decision, job.workspace.mapPath file = .ok path ∧
    Draft.load w.tree path = .ok draft ∧
    (Repair.run job.team draft w).status = .ok status ∧ status ≠ .notNeeded ∧
    (job.repaired file draft status w).tree.readText file = .ok current ∧
    (Repair.run job.team draft w).session.draft.content ≠ current ∧
    ((job.promote (Repair.run job.team draft w).session.draft file).run
      (job.repaired file draft status w)).1 = .ok decision

def Job.Unproven (job : Job) (w : World) (file : String) : Prop :=
  ∃ draft, job.Changes w file draft ∧
    ¬ Repair.Passed job.team draft w (Repair.run job.team draft w).session.draft.content

def Job.Unbuilt (job : Job) (w : World) (file : String) : Prop :=
  ∃ draft, job.Changes w file draft ∧ 0 < (Repair.run job.team draft w).session.requested ∧
    ¬ Repair.Passed job.team draft w (Repair.run job.team draft w).session.draft.content

theorem Job.promote_decides {decision : Promotion.Decision}
    (h : ((job.promote draft file).run w).1 = .ok decision) :
    ∃ current, w.tree.readText file = .ok current ∧
      (decision = .unchanged ↔ draft.content = current) := by
  apply @Promotion.promote_decides job.gate job.answerer
  rw [job.run_promote] at h
  rcases hr : (Promotion.promote job.gate job.answerer draft file).run w with ⟨_ | d, w'⟩ <;>
    rw [hr] at h <;> cases h
  rfl

theorem Job.changes_of_done {status : Repair.Status} {decision : Promotion.Decision}
    (h : (job.process file (ε := RunError)).run w = (.ok (.done status decision), w₁))
    (hchanged : (FileResult.done status decision).isUnchanged = false) :
    ∃ draft, job.Changes w file draft ∧ (Repair.run job.team draft w).status = .ok status := by
  rw [job.run_process] at h
  rcases hr : (job.migrate file).run w with ⟨e | other, w'⟩ <;> rw [hr] at h <;> cases h
  obtain ⟨path, draft, status, hm, hl, hs, ⟨-, hd⟩ | ⟨hn, decision, hp, hd⟩⟩ := job.migrate_done hr
  · cases hd
    cases hchanged
  · cases hd
    obtain ⟨current, hread, hdecides⟩ := job.promote_decides hp
    have hne : decision ≠ .unchanged := by
      rintro rfl
      cases hchanged
    exact ⟨draft, ⟨path, status, current, decision, hm, hl, hs, hn, hread,
      fun he => hne (hdecides.mpr he), hp⟩, hs⟩

theorem Job.Changes.exists_done (h : job.Changes w file draft) :
    ∃ status decision, (Repair.run job.team draft w).status = .ok status ∧
      ((job.process file (ε := RunError)).run w).1 = .ok (.done status decision) ∧
      (FileResult.done status decision).isUnchanged = false := by
  obtain ⟨path, status, current, decision, hm, hl, hs, hn, hread, hne, hp⟩ := h
  obtain ⟨current', hread', hdecides⟩ := job.promote_decides hp
  rw [hread] at hread'
  cases hread'
  refine ⟨status, decision, hs, ?_, ?_⟩
  · rw [job.run_process, job.run_migrate, hm]
    dsimp only
    rw [hl]
    dsimp only
    rw [hs]
    dsimp only
    rw [if_neg hn]
    rcases hr : (job.promote (Repair.run job.team draft w).session.draft file).run
      (job.repaired file draft status w) with ⟨_ | _, _⟩ <;> rw [hr] at hp <;> cases hp
    rfl
  · cases decision with
    | unchanged => exact absurd (hdecides.mp rfl) hne
    | promoted => rfl
    | declined => rfl
    | dryRun => rfl

theorem Job.unbuilt_iff (h : (job.process file (ε := RunError)).run w = (.ok result, w₁)) :
    (result.isUnverified && !result.isUnchanged) = true ↔ job.Unbuilt w file := by
  rw [Bool.and_eq_true, Bool.not_eq_true']
  constructor
  · rintro ⟨hunverified, hchanged⟩
    cases result with
    | failed => cases hunverified
    | done status decision =>
      obtain ⟨draft, hc, hs⟩ := Job.changes_of_done h hchanged
      obtain ⟨hrequested, hnot⟩ := (Repair.unverified_iff hs).mp hunverified
      exact ⟨draft, hc, hrequested, hnot⟩
  · rintro ⟨draft, hc, hrequested, hnot⟩
    obtain ⟨status, decision, hs, hrun, hchanged⟩ := Job.Changes.exists_done hc
    rw [h] at hrun
    cases hrun
    exact ⟨(Repair.unverified_iff hs).mpr ⟨hrequested, hnot⟩, hchanged⟩

open Classical in
noncomputable def Job.unbuilt (job : Job) : World → List String → Nat
  | _, [] => 0
  | w, file :: rest =>
    (if job.Unbuilt w file then 1 else 0) +
      job.unbuilt ((job.process file (ε := RunError)).run w).2 rest

theorem Job.Processed.unbuilt (h : job.Processed w done w₁) :
    (done.countP fun x => x.2.isUnverified && !x.2.isUnchanged) =
      job.unbuilt w (done.map Prod.fst) := by
  induction h with
  | none w => rfl
  | @next w w₁ w₂ file result done begun ran others ih =>
    rw [List.countP_cons, ih, List.map_cons, Job.unbuilt, ran, Nat.add_comm]
    by_cases hu : job.Unbuilt w file
    · rw [if_pos hu, if_pos ((Job.unbuilt_iff ran).mpr hu)]
    · rw [if_neg hu, if_neg fun hb => hu ((Job.unbuilt_iff ran).mp hb)]

theorem unverified_counts (h : job.Processed w done w₁)
    (hchanged : ∀ x ∈ done, x.2.isUnverified = true → x.2.isUnchanged = false) :
    (counts done).unverified = job.unbuilt w (done.map Prod.fst) := by
  rw [← h.unbuilt, counts, recordAll_eq]
  refine (Nat.zero_add _).trans (List.countP_congr fun x hx => ?_)
  rw [Bool.and_eq_true, Bool.not_eq_true']
  exact ⟨fun hu => ⟨hu, hchanged x hx hu⟩, fun hu => hu.1⟩

theorem conclude_unverified (ws : Workspace) (dryRun : Bool) (s : Summary)
    (h : ((conclude ws dryRun s).run w).1 = .ok ()) :
    ∃ before, ((conclude ws dryRun s).run w).2.journal =
      w.journal ++ (before ++ [.notice (.summary s dryRun)]) ∧
        before.filterMap Event.unverified? = [] := by
  rw [run_conclude] at h ⊢
  by_cases hk : (dryRun && s.needsInspection) = true
  · rw [if_pos hk]
    exact ⟨[.notice (.kept ws.root)], rfl, rfl⟩
  · rw [if_neg hk] at h ⊢
    obtain ⟨removed, hr, hquiet⟩ := Workspace.preparing_cleanup ws w
    rcases hc : ws.cleanup.run w with ⟨e | _, w'⟩ <;> rw [hc] at h hr
    · cases h
    · refine ⟨removed, ?_, List.filterMap_eq_nil_iff.mpr fun e he =>
        Event.unverified?_of_isPreparing (hquiet e he)⟩
      change w'.journal ++ _ = _
      rw [hr, List.append_assoc]

/-- A run tells the number of files that were changed without a passing build: in one line, which is
the last one that it shows, or in none if there are no such files. -/
structure TellsUnverified (around : Surroundings) (order : Order) (d : Terminal.Display) (w : World)
    (n : Nat) : Prop where
  lines : ∃ told, ((migrate around order).run w).2.journal = w.journal ++ told ∧
    told.filterMap Event.unverified? = if 0 < n then [n] else []
  shown : ∃ before, (Command.perform around order d w).stderr =
    before ++ Terminal.textOf (d.showUnverified n)

theorem tells_idle (d : Terminal.Display) (hplan : (plan around order).run w = (.ok p, w₁))
    (hnil : p.files = []) : TellsUnverified around order d w 0 where
  lines := by
    obtain ⟨planned, htold, hplanned⟩ := preparing_plan around order w
    rw [hplan] at htold
    refine ⟨planned ++ [.notice (.noSources p.path)], ?_, ?_⟩
    · rw [run_migrate_idle hplan hnil]
      change w₁.journal ++ _ = _
      rw [htold, List.append_assoc]
    · rw [List.filterMap_append, List.filterMap_eq_nil_iff.mpr fun e he =>
        Event.unverified?_of_isPreparing (hplanned e he)]
      rfl
  shown := ⟨_, (String.append_empty).symm⟩

theorem Begun.tells_unverified {place r : Place} {b : Build.Builder} (d : Terminal.Display)
    (h : Begun around order w p job w₂ place r b) (ht : w.tree.Sound) (ho : w.tree.Single)
    (hok : ((migrate around order).run w).1 = .ok ())
    (hplan : (plan around order).run w = (.ok p, w₁))
    (hsetUp : (setUp around order p).run w₁ = (.ok job, w₂))
    (hreaches : job.Reaches p.files w₂ done rest w₃)
    (hrun : (migrate around order).run w = (conclude job.workspace order.dryRun (counts done)).run
      (w₃.notes (interruption rest done.length p.files.length))) :
    TellsUnverified around order d w (counts done).unverified := by
  obtain ⟨planned, htold₁, hplanned⟩ := preparing_plan around order w
  obtain ⟨prepared, htold₂, hprepared⟩ := preparing_setUp around order p w₁
  obtain ⟨worked, htold₃, hworked⟩ := h.reports ht ho hreaches
  obtain ⟨before, htold₄, hbefore⟩ := conclude_unverified job.workspace order.dryRun (counts done)
    (hrun ▸ hok)
  rw [hplan] at htold₁
  rw [hsetUp] at htold₂
  rw [← hrun] at htold₄
  have hquiet : (planned ++ (prepared ++ (worked ++
      interruption rest done.length p.files.length))).filterMap Event.unverified? = [] := by
    refine List.filterMap_eq_nil_iff.mpr fun e he => ?_
    simp only [List.mem_append] at he
    obtain he | he | he | he := he
    · exact Event.unverified?_of_isPreparing (hplanned e he)
    · exact Event.unverified?_of_isPreparing (hprepared e he)
    · exact Event.unverified?_of_open (hworked.closing e he)
    · unfold interruption at he
      split at he
      · cases he
      · rw [List.mem_singleton.mp he]
        rfl
  have htold : ((migrate around order).run w).2.journal = w.journal ++
      (planned ++ (prepared ++ (worked ++ interruption rest done.length p.files.length)) ++
        (before ++ [.notice (.summary (counts done) order.dryRun)])) := by
    rw [htold₄, World.notes, htold₃, htold₂, htold₁]
    simp only [List.append_assoc]
  generalize planned ++ (prepared ++ (worked ++ interruption rest done.length p.files.length)) =
    early at hquiet htold
  refine ⟨⟨_, htold, ?_⟩, ?_⟩
  · rw [List.filterMap_append, List.filterMap_append, hquiet, hbefore]
    simp only [List.nil_append, List.filterMap_cons, List.filterMap_nil, Event.unverified?]
    by_cases hn : 0 < (counts done).unverified
    · simp only [if_pos hn]
    · simp only [if_neg hn]
  · rw [← List.append_assoc, ← List.append_assoc] at htold
    obtain ⟨shown, hshown⟩ := @perform_shown around w order d _ _ _ hok htold
    obtain ⟨counted, hcounted⟩ := d.showSummary_eq (counts done) order.dryRun
    refine ⟨shown ++ Terminal.textOf counted, ?_⟩
    rw [hshown, hcounted, Terminal.textOf_append, String.append_assoc]

/-- Whatever the oracle and the builds say: a run that completes tells how many of the files that it
processed were changed after a request and without a passing build, if none of the unverified ones
was found unchanged. -/
theorem migrate_unverified (d : Terminal.Display) (ht : w.tree.Sound) (ho : w.tree.Single)
    (hcwd : w.tree.Solid around.directory) (hok : ((migrate around order).run w).1 = .ok ()) :
    ∃ n p w₁, TellsUnverified around order d w n ∧ (plan around order).run w = (.ok p, w₁) ∧
      (p.files = [] ∧ n = 0 ∨ ∃ job w₂ done rest w₃,
        (setUp around order p).run w₁ = (.ok job, w₂) ∧ job.Reaches p.files w₂ done rest w₃ ∧
        ((∀ x ∈ done, x.2.isUnverified = true → x.2.isUnchanged = false) →
          n = job.unbuilt w₂ (done.map Prod.fst))) := by
  have hmigrate : (migrate around order).run w =
      (.ok (), ((migrate around order).run w).2) := Prod.ext hok rfl
  obtain ⟨p, w₁, hplan, -⟩ := Step.bind_eq_ok (x := plan around order) hmigrate
  by_cases hne : p.files = []
  · exact ⟨0, p, w₁, tells_idle d hplan hne, hplan, .inl ⟨hne, rfl⟩⟩
  · rw [run_migrate hplan hne] at hmigrate
    obtain ⟨job, w₂, hsetUp, -⟩ := Step.bind_eq_ok hmigrate
    obtain ⟨place, r, b, hb⟩ := begun ht hcwd hplan hsetUp
    obtain ⟨done, rest, w₃, hreaches, hrun⟩ := migrate_reaches hplan hne hsetUp
    exact ⟨_, p, w₁, hb.tells_unverified d ht ho hok hplan hsetUp hreaches hrun, hplan,
      .inr ⟨job, w₂, done, rest, w₃, hsetUp, hreaches, unverified_counts hreaches.processed⟩⟩

def unitTree : Tree := ⟨[(["A.java"],
  .file "io.vertx.core.Promise public void start(Promise<Void> startFuture){}".toUTF8 false)]⟩

theorem unitTree_sound : unitTree.Sound := sound_of_listed (by decide)

def keyed : Surroundings :=
  { alone with
    environment := fun name => if name = "ANTHROPIC_API_KEY" then some "k" else none
    service := fun _ _ => .response 400 "" }

theorem migrate_unverified_refused :
    TellsUnverified keyed soleOrder (Command.display keyed.environment false "") ⟨unitTree, []⟩ 1 ∧
      ∃ (job : Job) (w : World), job.Unbuilt w "/A.java" := by
  have hrun : (migrate keyed soleOrder).succeeds (fun _ w => w.journal.contains
      (.notice (.summary { promoted := 1, unverified := 1 } false))) ⟨unitTree, []⟩ = true := by
    decide +kernel
  have hfirst : (plan keyed soleOrder >>= fun p => setUp keyed soleOrder p >>= fun job =>
      job.process "/A.java" >>= fun r => pure (p, r)).succeeds
      (fun x _ => x.1.files == ["/A.java"] && !x.2.isUnchanged) ⟨unitTree, []⟩ = true := by
    decide +kernel
  obtain ⟨⟨⟩, w', hw', hsummary⟩ := Step.exists_of_succeeds hrun
  obtain ⟨n, p, w₁, htells, hplan, h⟩ := migrate_unverified (w := ⟨unitTree, []⟩)
    (Command.display keyed.environment false "") unitTree_sound (by unfold Single unitTree; decide)
    (solid_nil _) (by rw [hw'])
  have hn : n = 1 := by
    obtain ⟨told, htold, hlines⟩ := htells.lines
    rw [hw', List.nil_append] at htold
    have hone : 1 ∈ told.filterMap Event.unverified? :=
      List.mem_filterMap.mpr ⟨_, htold ▸ List.contains_iff_mem.mp hsummary, rfl⟩
    rw [hlines] at hone
    split at hone
    · exact (List.mem_singleton.mp hone).symm
    · cases hone
  subst hn
  refine ⟨htells, ?_⟩
  obtain ⟨x, _, hx, hfiles⟩ := Step.exists_of_succeeds hfirst
  obtain ⟨p', w₁', hplan', hx⟩ := Step.bind_eq_ok hx
  obtain ⟨job', w₂', hsetUp', hx⟩ := Step.bind_eq_ok hx
  obtain ⟨result, w₃', hprocess, hx⟩ := Step.bind_eq_ok hx
  obtain ⟨rfl, rfl⟩ := Step.pure_eq_ok hx
  obtain ⟨hfiles, hchanged⟩ := Bool.and_eq_true_iff.mp hfiles
  rw [hplan] at hplan'
  cases hplan'
  rw [beq_iff_eq.mp hfiles] at h
  obtain ⟨hnil, -⟩ | ⟨job, w₂, done, rest, w₃, hsetUp, hreaches, hcount⟩ := h
  · cases hnil
  rw [hsetUp] at hsetUp'
  cases hsetUp'
  cases hreaches.processed with
  | none => cases hcount nofun
  | @next _ w₄ _ file result' done _ ran _ =>
    obtain ⟨hfile, hrest⟩ := List.cons.inj hreaches.files
    obtain ⟨hdone, -⟩ := List.append_eq_nil_iff.mp hrest.symm
    rw [List.map_eq_nil_iff] at hdone
    have hfile : file = "/A.java" := hfile.symm
    subst hdone hfile
    rw [hprocess] at ran
    cases ran
    have hone := hcount fun x hx _ => by
      rw [List.mem_singleton.mp hx]
      exact Bool.not_eq_true' _ |>.mp hchanged
    refine ⟨job', w₂', ?_⟩
    by_contra hnot
    rw [List.map_singleton, Job.unbuilt, if_neg hnot] at hone
    cases hone

/-- Without a key the rules alone are applied. The file changes and no build of it is made, but the
run tells of no such file. -/
theorem migrate_uncounted : ∃ p w₁ job w₂ w',
    (plan alone soleOrder).run ⟨soleTree, []⟩ = (.ok p, w₁) ∧ p.files = ["/A.java"] ∧
    (setUp alone soleOrder p).run w₁ = (.ok job, w₂) ∧ job.Unproven w₂ "/A.java" ∧
    (migrate alone soleOrder).run ⟨soleTree, []⟩ = (.ok (), w') ∧
    .notice (.summary { promoted := 1 } false) ∈ w'.journal ∧
    w'.journal.filterMap Event.unverified? = [] := by
  have hrun : (migrate alone soleOrder).succeeds (fun _ w =>
      (w.journal.filterMap Event.unverified?).isEmpty &&
        w.journal.contains (.notice (.summary { promoted := 1 } false))) ⟨soleTree, []⟩ = true := by
    decide +kernel
  have hfirst : (plan alone soleOrder >>= fun p => setUp alone soleOrder p >>= fun job =>
      job.process "/A.java" >>= fun r => pure (p, job, r)).succeeds
      (fun x _ => x.1.files == ["/A.java"] && (x.2.1.team.oracle.isNone &&
        x.2.2 == .done (.rulesOnly .unitNotFound) .promoted)) ⟨soleTree, []⟩ = true := by
    decide +kernel
  obtain ⟨⟨⟩, w', hw', htold⟩ := Step.exists_of_succeeds hrun
  obtain ⟨hnone, hsummary⟩ := Bool.and_eq_true_iff.mp htold
  obtain ⟨x, _, hx, hfacts⟩ := Step.exists_of_succeeds hfirst
  obtain ⟨p, w₁, hplan, hx⟩ := Step.bind_eq_ok hx
  obtain ⟨job, w₂, hsetUp, hx⟩ := Step.bind_eq_ok hx
  obtain ⟨result, w₃, hprocess, hx⟩ := Step.bind_eq_ok hx
  obtain ⟨rfl, rfl⟩ := Step.pure_eq_ok hx
  obtain ⟨hfiles, hfacts⟩ := Bool.and_eq_true_iff.mp hfacts
  obtain ⟨horacle, hresult⟩ := Bool.and_eq_true_iff.mp hfacts
  have horacle : job.team.oracle.isNone = true := horacle
  have hresult : result = .done (.rulesOnly .unitNotFound) .promoted := beq_iff_eq.mp hresult
  rw [hresult] at hprocess
  obtain ⟨draft, hc, -⟩ := Job.changes_of_done hprocess rfl
  refine ⟨p, w₁, job, w₂, w', hplan, beq_iff_eq.mp hfiles, hsetUp, ⟨draft, hc, ?_⟩, hw',
    List.contains_iff_mem.mp hsummary, List.isEmpty_iff.mp hnone⟩
  -- A build passes only in a repair that asks for a rewrite, and here there is nobody to ask.
  rintro ⟨_, _, ⟨-, ⟨oracle, _, _, _, hasked, -⟩, -, -⟩, -⟩
  rw [hasked] at horacle
  cases horacle

end Run

end Refit
