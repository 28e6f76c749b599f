import Refit.Proofs.Step
import Refit.Run.File

namespace Refit

/-- What cannot be done to a file that is named. -/
def Failure.OnFile (e : Failure) : Prop := ∃ path cause, e = .file path cause

namespace Draft

variable {d : Draft} {t : Tree} {path : String} {e : Failure}

theorem persist_onFile (h : d.persist t = .error e) : e.OnFile := by
  unfold persist at h
  split at h
  · cases h
  · cases h
    exact ⟨_, _, rfl⟩

theorem load_onFile (h : load t path = .error e) : e.OnFile := by
  unfold load at h
  split at h
  · cases h
  · cases h
    exact ⟨_, _, rfl⟩

end Draft

namespace Repair

variable {team : Team} {oracle : Oracle} {s : Session} {e : Failure}

theorem Session.persist_onFile (h : s.persist = .error e) : e.OnFile := by
  unfold Session.persist at h
  cases hd : s.draft.persist s.world.tree with
  | ok t =>
    rw [hd] at h
    cases h
  | error cause =>
    rw [hd] at h
    cases h
    exact Draft.persist_onFile hd

theorem attempts_onFile (left attempt : Nat) (code instructions : String)
    (h : (attempts team oracle left attempt code instructions s).status = .error e) : e.OnFile := by
  fun_induction attempts team oracle left attempt code instructions s with
  | case1 | case3 | case4 => cases h
  | case2 =>
    cases h
    exact Session.persist_onFile ‹_›
  | case5 => exact ‹_ → e.OnFile› h

theorem run_onFile {draft : Draft} {w : World} (h : (run team draft w).status = .error e) :
    e.OnFile := by
  unfold run at h
  dsimp only at h
  split at h
  · split at h
    · cases h
    · cases h
    · exact attempts_onFile _ _ _ _ h
  · cases h

end Repair

namespace Step

variable {α β : Type} {x : Action α}

/-- A step that fails on files only. -/
def OnFiles (x : Action α) : Prop := ∀ w e, (x.run w).1 = .error e → e.OnFile

theorem onFiles_sure (h : ∀ w, ∃ a, (x.run w).1 = .ok a) : OnFiles x := by
  intro w e he
  obtain ⟨a, ha⟩ := h w
  rw [ha] at he
  cases he

theorem onFiles_pure (a : α) : OnFiles (pure a : Action α) := onFiles_sure fun _ => ⟨a, rfl⟩

theorem onFiles_note (e : Event) : OnFiles (note e) := onFiles_sure fun _ => ⟨(), rfl⟩

theorem onFiles_tree : OnFiles tree := onFiles_sure fun w => ⟨w.tree, rfl⟩

theorem onFiles_journal : OnFiles journal := onFiles_sure fun w => ⟨w.journal, rfl⟩

theorem onFiles_inspect (path : String) (g : Tree → Except FileError α) :
    OnFiles (inspect path g) := by
  intro w e h
  rw [run_inspect] at h
  cases hg : g w.tree <;> rw [hg] at h <;> cases h
  exact ⟨_, _, rfl⟩

theorem onFiles_change (path : String) (g : Tree → Except FileError Tree) :
    OnFiles (change path g) := by
  intro w e h
  rw [run_change] at h
  cases hg : g w.tree <;> rw [hg] at h <;> cases h
  exact ⟨_, _, rfl⟩

theorem onFiles_ofExcept {r : Except Failure α} (h : ∀ e, r = .error e → e.OnFile) :
    OnFiles (ofExcept r) := by
  intro w e he
  cases r with
  | ok a => cases he
  | error cause =>
    cases he
    exact h _ rfl

theorem OnFiles.bind {f : α → Action β} (hx : OnFiles x) (hf : ∀ a, OnFiles (f a)) :
    OnFiles (x >>= f) := by
  intro w e h
  rw [run_bind] at h
  rcases hr : x.run w with ⟨cause | a, w'⟩
  · rw [hr] at h
    cases h
    exact hx w _ (congrArg Prod.fst hr)
  · rw [hr] at h
    exact hf a w' e h

end Step

namespace Promotion

variable {gate : Gate} {answerer : Answerer} {draft : Draft} {file name : String}

open Step

theorem onFiles_save : OnFiles (save draft file name) :=
  (onFiles_note _).bind fun _ => (onFiles_change _ _).bind fun _ => (onFiles_note _).bind fun _ =>
    onFiles_pure _

theorem onFiles_decide : OnFiles (decide gate answerer draft file name) := by
  unfold decide
  split
  · exact onFiles_pure _
  · split
    · exact onFiles_save
    · refine OnFiles.bind ?_ fun agreed => ?_
      · exact onFiles_journal.bind fun _ => (onFiles_note _).bind fun _ => onFiles_pure _
      · split
        · exact onFiles_save
        · exact (onFiles_note _).bind fun _ => onFiles_pure _

theorem onFiles_promote : OnFiles (promote gate answerer draft file) := by
  refine (onFiles_inspect _ _).bind fun current => ?_
  split
  · exact (onFiles_change _ _).bind fun _ => (onFiles_note _).bind fun _ => onFiles_decide
  · exact onFiles_pure _

end Promotion

namespace Run

open Step

variable {job : Job} {file mapped : String}

theorem Job.onFiles_repair (draft : Draft) : OnFiles (job.repair draft) := by
  intro w e h
  change (Except.map _ (Repair.run job.team draft w).status) = _ at h
  cases hr : (Repair.run job.team draft w).status with
  | ok status =>
    rw [hr] at h
    cases h
  | error cause =>
    rw [hr] at h
    cases h
    exact Repair.run_onFile hr

/-- Where a file has a path in the workspace, its migration can fail on files only. -/
theorem Job.onFiles_migrate (h : job.workspace.mapPath file = .ok mapped) :
    OnFiles (job.migrate file) := by
  unfold migrate
  rw [h]
  refine (onFiles_pure _).bind fun path => onFiles_tree.bind fun u =>
    (onFiles_ofExcept fun _ => Draft.load_onFile).bind fun draft =>
    (job.onFiles_repair draft).bind fun repaired => (onFiles_note _).bind fun _ =>
    (onFiles_note _).bind fun _ => ?_
  split
  · exact onFiles_pure _
  · refine OnFiles.bind ?_ fun _ => onFiles_pure _
    refine Promotion.onFiles_promote.bind fun decision => ?_
    split
    · exact (onFiles_note _).bind fun _ => onFiles_pure _
    · exact onFiles_pure _

end Run

end Refit
