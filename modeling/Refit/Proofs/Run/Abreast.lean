import Refit.Proofs.Repair.Abreast
import Refit.Proofs.Repair.Splice
import Refit.Proofs.Run.Loop

namespace Refit

variable {R : World → World → Prop} {P : String → Prop}

namespace Promotion

variable {gate : Gate} {answerer : Answerer} {draft : Draft} {file : String}

theorem save_abreast (hR : Step.Shares R P) (hd : P draft.path) (file name : String) :
    Step.Abreast R R (save draft file name) (save draft file name) := by
  unfold save
  exact (Step.abreast_note hR.noted _).bind fun _ =>
    (Step.abreast_change fun w w' h => hR.copied w w' _ file h hd).bind fun _ =>
      (Step.abreast_note hR.noted _).bind fun _ => Step.abreast_pure _

theorem ask_abreast (hR : Step.Notable R) (ha : Step.Blind R answerer) (question : String) :
    Step.Abreast R R (ask answerer question) (ask answerer question) := by
  unfold ask
  refine Step.abreast_journal fun w w' h => ?_
  rw [ha w w' h]
  exact (Step.abreast_note hR _).bind fun _ => Step.abreast_pure _

theorem decide_abreast (hR : Step.Shares R P) (ha : Step.Blind R answerer) (hd : P draft.path)
    (file name : String) :
    Step.Abreast R R (decide gate answerer draft file name)
      (decide gate answerer draft file name) := by
  unfold decide
  split
  · exact Step.abreast_pure _
  · split
    · exact save_abreast hR hd file name
    · refine (ask_abreast hR.noted ha _).bind fun answer => ?_
      split
      · exact save_abreast hR hd file name
      · exact (Step.abreast_note hR.noted _).bind fun _ => Step.abreast_pure _

theorem promote_abreast (hR : Step.Shares R P) (ha : Step.Blind R answerer) (hd : P draft.path)
    (hf : P file) :
    Step.Abreast R R (promote gate answerer draft file) (promote gate answerer draft file) := by
  unfold promote
  refine (Step.abreast_inspect fun w w' h => hR.read w w' file h hf).bind fun current => ?_
  split
  · exact (Step.abreast_change fun w w' h => hR.written w w' draft.path _ h).bind fun _ =>
      (Step.abreast_note hR.noted _).bind fun _ => decide_abreast hR ha hd file _
  · exact Step.abreast_pure _

end Promotion

namespace Run

variable {job job' : Job}

/-- Two jobs on the same workspace that agree, with others who do not see what differs. -/
structure Job.Agrees (R : World → World → Prop) (job job' : Job) : Prop where
  workspace : job'.workspace = job.workspace
  gate : job'.gate = job.gate
  answerer : job'.answerer = job.answerer
  interrupted : job'.interrupted = job.interrupted
  team : job.team.Agrees R job'.team
  unanswered : Step.Blind R job.answerer
  uninterrupted : Step.Blind R job.interrupted

structure Legible (P : String → Prop) (ws : Workspace) (file : String) : Prop where
  original : P file
  copy : ∀ path, ws.mapPath file = .ok path → P path

theorem Job.repair_bind_abreast {α : Type}
    {f g : Repair.Session × Repair.Status → Action α} (h : job.Agrees R job') (draft : Draft)
    (hg : ∀ session status w, g ({ session with world := w }, status) = g (session, status))
    (ha : ∀ session status, session.draft.path = draft.path →
      Step.Abreast R R (f (session, status)) (g (session, status))) :
    Step.Abreast R R (job.repair draft >>= f) (job'.repair draft >>= g) := by
  intro w w' hw
  obtain ⟨hstatus, u, hsession, hu⟩ := Repair.run_abreast h.team draft hw
  rw [Step.run_bind, Step.run_bind, job.run_repair, job'.run_repair, ← hstatus, hsession]
  cases (Repair.run job.team draft w).status with
  | error e => exact ⟨rfl, hu⟩
  | ok status =>
    dsimp only [Except.map]
    rw [hg (Repair.run job.team draft w).session status u]
    exact ha _ _ (Repair.run_kept job.team draft w).1 _ _ hu

theorem Job.promote_abreast {draft : Draft} {file : String} (hR : Step.Shares R P)
    (h : job.Agrees R job') (hd : P draft.path) (hf : P file) :
    Step.Abreast R R (job.promote draft file) (job'.promote draft file) := by
  unfold Job.promote
  rw [h.gate, h.answerer]
  refine (Promotion.promote_abreast hR h.unanswered hd hf).bind fun decision => ?_
  split
  · exact (Step.abreast_note hR.noted _).bind fun _ => Step.abreast_pure _
  · exact Step.abreast_pure _

theorem Job.migrate_abreast {file : String} (hR : Step.Shares R P) (h : job.Agrees R job')
    (hf : Legible P job.workspace file) :
    Step.Abreast R R (job.migrate file) (job'.migrate file) := by
  unfold Job.migrate
  rw [h.workspace]
  refine Step.abreast_ofExcept_bind fun path hm => Step.abreast_tree fun w w' hw => ?_
  have hp := hf.copy path hm
  have hl : Draft.load w'.tree path = Draft.load w.tree path := by
    unfold Draft.load
    rw [hR.read w w' path hw hp]
  rw [hl]
  refine Step.abreast_ofExcept_bind fun draft hd => ?_
  refine Job.repair_bind_abreast h draft (fun _ _ _ => rfl) fun session status hpath => ?_
  refine (Step.abreast_note hR.noted _).bind fun _ =>
    (Step.abreast_note hR.noted _).bind fun _ => ?_
  split
  · exact Step.abreast_pure _
  · refine (Job.promote_abreast hR h ?_ hf.original).bind fun decision => Step.abreast_pure _
    rw [hpath, (load_eq_ok hd).1]
    exact hp

theorem Job.process_abreast {file : String} (hR : Step.Shares R P) (h : job.Agrees R job')
    (hf : Legible P job.workspace file) :
    Step.Abreast R R (job.process file (ε := RunError)) (job'.process file) := by
  unfold Job.process
  refine (Job.migrate_abreast hR h hf).attempt.bind fun result => ?_
  split
  · exact Step.abreast_pure _
  · exact (Step.abreast_note hR.noted _).bind fun _ => Step.abreast_pure _

theorem migrateAll_abreast (hR : Step.Shares R P) (h : job.Agrees R job') (total : Nat)
    (s : Summary) {files : List String} (hf : ∀ file ∈ files, Legible P job.workspace file) :
    Step.Abreast R R (migrateAll job total s files) (migrateAll job' total s files) := by
  induction files generalizing s with
  | nil => exact Step.abreast_pure s
  | cons file rest ih =>
    rw [migrateAll, migrateAll, h.interrupted]
    refine Step.abreast_journal fun w w' hw => ?_
    rw [h.uninterrupted w w' hw]
    split
    · exact (Step.abreast_note hR.noted _).bind fun _ => Step.abreast_pure _
    · exact (Job.process_abreast hR h (hf file List.mem_cons_self)).bind fun result =>
        ih (s.record result) fun file hm => hf file (List.mem_cons_of_mem _ hm)

theorem conclude_abreast (hR : Step.Notable R) {ws : Workspace}
    (hc : Step.Abreast R R ws.cleanup ws.cleanup) (dryRun : Bool) (s : Summary) :
    Step.Abreast R R (conclude ws dryRun s) (conclude ws dryRun s) := by
  unfold conclude
  split
  · exact (Step.abreast_note hR _).bind fun _ => Step.abreast_note hR _
  · exact hc.mapError.bind fun _ => Step.abreast_note hR _

end Run

end Refit
