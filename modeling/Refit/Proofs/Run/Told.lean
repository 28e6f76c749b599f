import Refit.Proofs.Run.RulesOnly

namespace Refit

open Workspace

namespace Event

/-- Whether a build tool runs. -/
def isTool : Event → Bool
  | .tool .. => true
  | _ => false

def isPreparing : Event → Bool
  | .log _ | .notice .noKey | .notice (.using ..) | .notice .workspaceFailed
  | .notice (.workspaceReady _) | .notice (.filesFound ..) => true
  | _ => false

theorem not_isTool_of_isPreparing (e : Event) (h : e.isPreparing = true) : e.isTool = false := by
  cases e <;> first | rfl | cases h

end Event

def Step.Untooled {ε α : Type} (x : Step ε α) : Prop := x.Tells fun e => e.isTool = false

def Step.Preparing {ε α : Type} (x : Step ε α) : Prop := x.Tells fun e => e.isPreparing = true

theorem Step.Preparing.untooled {ε α : Type} {x : Step ε α} (h : x.Preparing) : x.Untooled :=
  Tells.mono h Event.not_isTool_of_isPreparing

namespace Workspace

open Step

theorem preparing_cleanup (ws : Workspace) : ws.cleanup.Preparing := by
  refine Tells.bind tells_tree fun t => ?_
  split
  · exact (tells_setTree _).bind fun _ => tells_note rfl
  · exact tells_pure _
  · exact tells_fail _

theorem preparing_copyEntry (ws : Workspace) (v : Tree.Visit) : (ws.copyEntry v).Preparing := by
  unfold copyEntry
  split
  · exact (tells_change _ _).bind fun _ => tells_pure _
  · exact (tells_change _ _).bind fun _ => tells_pure _

theorem preparing_copyBelow (ws : Workspace) (depth : Nat) (outside : List Tree.Open)
    (here : Tree.Open) (names : List String) :
    (ws.copyBelow depth outside here names).Preparing :=
  copyBelow_kept (K := fun x => Preparing x) tells_pure tells_fail tells_tree
    (fun hx hf => hx.bind hf) (preparing_copyEntry ws)

theorem preparing_create (ws : Workspace) : ws.create.Preparing :=
  (preparing_cleanup ws).bind fun _ => Tells.bind (tells_note rfl) fun _ =>
    (tells_change _ _).bind fun _ => tells_tree.bind fun _ => (tells_inspect _ _).bind fun _ =>
      (preparing_copyBelow _ _ _ _ _).bind fun _ => tells_note rfl

end Workspace

namespace Run

open Step

variable {around : Surroundings} {order : Order} {job : Job} {r : Place}

theorem preparing_client? (s : Settings) : (client? s).Preparing := by
  unfold client?
  split
  · exact (tells_ofExcept _).bind fun _ => Tells.bind (tells_note rfl) fun _ => tells_pure _
  · exact Tells.bind (tells_note rfl) fun _ => tells_pure _

theorem preparing_plan (around : Surroundings) (order : Order) : (plan around order).Preparing := by
  refine tells_tree.bind fun _ => (tells_ofExcept _).bind fun place => ?_
  have hrest : ∀ strategy, Step.Preparing (do
      let root := ProjectRoot.find (← Step.tree) place.text
      Step.log (rootRecord root)
      let settings ← Step.ofExcept
        ((Settings.load (← Step.tree) root around.environment).mapError .settings)
      let client ← client? settings
      let files ← Step.ofExcept ((Sources.collect (← Step.tree) place.text).mapError .search)
      return (⟨place.text, strategy, client, root, files⟩ : Plan)) := fun strategy =>
    tells_tree.bind fun _ => Tells.bind (tells_note rfl) fun _ => tells_tree.bind fun _ =>
      (tells_ofExcept _).bind fun _ => (preparing_client? _).bind fun _ => tells_tree.bind fun _ =>
        (tells_ofExcept _).bind fun _ => tells_pure _
  dsimp only
  split
  · exact (tells_pure _).bind hrest
  · exact (tells_fail _).bind hrest

theorem preparing_prepare (ws : Workspace) : (prepare ws).Preparing := by
  refine Tells.bind (preparing_create ws).attempt fun made => ?_
  cases made with
  | ok => exact tells_note rfl
  | error cause =>
    exact Tells.bind (tells_note rfl) fun _ => Tells.bind (preparing_cleanup ws).attempt fun _ =>
      tells_fail _

theorem preparing_setUp (around : Surroundings) (order : Order) (p : Plan) :
    (setUp around order p).Preparing :=
  tells_tree.bind fun _ => (tells_ofExcept _).bind fun _ => (preparing_prepare _).bind fun _ =>
    Tells.bind (tells_note rfl) fun _ => tells_tree.bind fun _ => Tells.bind (tells_note rfl) fun _ =>
      tells_pure _

theorem untooled_save (draft : Draft) (file name : String) :
    (Promotion.save draft file name).Untooled :=
  Tells.bind (tells_note rfl) fun _ => (tells_change _ _).bind fun _ =>
    Tells.bind (tells_note rfl) fun _ => tells_pure _

theorem untooled_decide (gate : Promotion.Gate) (answerer : Promotion.Answerer) (draft : Draft)
    (file name : String) : (Promotion.decide gate answerer draft file name).Untooled := by
  unfold Promotion.decide
  split
  · exact tells_pure _
  split
  · exact untooled_save draft file name
  refine Tells.bind (tells_journal.bind fun _ => Tells.bind (tells_note rfl) fun _ => tells_pure _)
    fun _ => ?_
  split
  · exact untooled_save draft file name
  · exact Tells.bind (tells_note rfl) fun _ => tells_pure _

theorem untooled_promote (job : Job) (draft : Draft) (file : String) :
    (job.promote draft file).Untooled := by
  refine Tells.bind ?_ fun decision => ?_
  · refine (tells_inspect _ _).bind fun current => ?_
    split
    · exact (tells_change _ _).bind fun _ => Tells.bind (tells_note rfl) fun _ =>
        untooled_decide _ _ _ _ _
    · exact tells_pure _
  · split
    · exact Tells.bind (tells_note rfl) fun _ => tells_pure _
    · exact tells_pure _

theorem untooled_repair (hj : job.RulesOnly r) (draft : Draft) : (job.repair draft).Untooled := by
  refine tells_silent fun w => ?_
  obtain ⟨session, status, hrun, -⟩ := repair_rulesOnly hj draft w
  rw [hrun]

theorem untooled_migrate (hj : job.RulesOnly r) (file : String) : (job.migrate file).Untooled := by
  refine (tells_ofExcept _).bind fun _ => tells_tree.bind fun _ => (tells_ofExcept _).bind fun _ =>
    (untooled_repair hj _).bind fun repaired => ?_
  refine Tells.bind (tells_note rfl) fun _ => Tells.bind (tells_note rfl) fun _ => ?_
  split
  · exact tells_pure _
  · exact (untooled_promote job _ file).bind fun _ => tells_pure _

theorem untooled_process (hj : job.RulesOnly r) (file : String) :
    (job.process file (ε := RunError)).Untooled := by
  refine Tells.bind (untooled_migrate hj file).attempt fun result => ?_
  cases result with
  | ok => exact tells_pure _
  | error e => exact Tells.bind (tells_note rfl) fun _ => tells_pure _

theorem untooled_migrateAll (hj : job.RulesOnly r) (total : Nat) (s : Summary)
    (files : List String) : (migrateAll job total s files).Untooled := by
  induction files generalizing s with
  | nil => exact tells_pure s
  | cons file files ih =>
    refine tells_journal.bind fun _ => ?_
    split
    · exact Tells.bind (tells_note rfl) fun _ => tells_pure _
    · exact (untooled_process hj file).bind fun _ => ih _

theorem untooled_conclude (ws : Workspace) (dryRun : Bool) (s : Summary) :
    (conclude ws dryRun s).Untooled := by
  unfold conclude
  split
  · exact Tells.bind (tells_note rfl) fun _ => tells_note rfl
  · exact Tells.bind (preparing_cleanup ws).untooled.mapError fun _ => tells_note rfl

end Run

end Refit
