import Refit.Command.Program
import Refit.Proofs.Repair.Told
import Refit.Proofs.Run.Loop
import Refit.Proofs.Run.Told
import Refit.Proofs.Workspace.Plain

namespace Refit

open Refit.Path Refit.Tree Workspace

variable {t : Tree} {place r : Place} {files names : List String} {told told' : List Event}
  {label : String}

namespace Event

/-- The line that a file of one of the names was saved. -/
def isSaved (names : List String) : Event → Bool
  | .status .success message => names.any fun name => message == "Saved " ++ name
  | _ => false

/-- The file that a line tells a failure of. -/
def failed? : Event → Option String
  | .notice (.fileFailed name _) => some name
  | _ => none

/-- A line about the end of a run. -/
def isClosing : Event → Bool
  | .notice (.interrupted ..) | .notice (.kept _) | .notice (.summary ..) => true
  | _ => false

def IsAside (names : List String) (e : Event) : Prop :=
  e.isClosing = false ∧ e.isSaved names = false ∧ e.failed? = none

def isWork : Event → Bool
  | .log _ | .tool .. | .request _ | .pause _ => true
  | _ => false

theorem isAside_of_isWork {e : Event} (h : e.isWork = true) : e.IsAside names := by
  cases e <;> first | exact ⟨rfl, rfl, rfl⟩ | cases h

theorem isAside_of_isPreparing {e : Event} (h : e.isPreparing = true) : e.IsAside names := by
  cases e with
  | notice n => cases n <;> first | exact ⟨rfl, rfl, rfl⟩ | cases h
  | log => exact ⟨rfl, rfl, rfl⟩
  | _ => cases h

theorem isSaved_of_mem {name : String} (h : name ∈ names) :
    isSaved names (.status .success ("Saved " ++ name)) = true :=
  List.any_eq_true.mpr ⟨name, h, beq_self_eq_true _⟩

end Event

theorem Chat.Client.sendWith_isWork (c : Client) (service : Service) (system user : String)
    (left retry : Nat) (history : Journal) :
    ∀ e ∈ (c.sendWith service system user left retry history).2, e.isWork = true := by
  have hsend : ∀ history, ∀ e ∈ (c.send service system user history).2, e.isWork = true := by
    intro history e he
    unfold send at he
    split at he <;> simp only [List.mem_cons, List.not_mem_nil, or_false] at he
    · rw [he]
      rfl
    · obtain rfl | rfl := he <;> rfl
  induction left generalizing retry history with
  | zero =>
    intro e he
    have hs := hsend history
    rw [sendWith] at he
    rcases hr : c.send service system user history with ⟨_ | _, events⟩ <;> rw [hr] at he hs <;>
      exact hs e he
  | succ left ih =>
    intro e he
    have hs := hsend history
    rw [sendWith] at he
    rcases hr : c.send service system user history with ⟨cause | _, events⟩ <;> rw [hr] at he hs
    · dsimp only at he
      split at he
      · simp only [List.append_assoc, List.mem_append, List.mem_cons, List.not_mem_nil,
          or_false] at he
        obtain he | (rfl | rfl) | he := he
        · exact hs e he
        · rfl
        · rfl
        · exact ih _ _ e he
      · exact hs e he
    · exact hs e he

theorem Chat.Client.propose_isWork (c : Client) (service : Service) (history : Journal)
    (code instructions : String) :
    ∀ e ∈ (c.propose service history code instructions).2, e.isWork = true := by
  intro e he
  have hs := c.sendWith_isWork service instructions code c.maxRetries 1 history
  unfold propose complete at he
  rcases hr : c.sendWith service instructions code c.maxRetries 1 history with ⟨cause | _, events⟩
    <;> rw [hr] at he hs
  · obtain he | he := List.mem_append.mp he
    · exact hs e he
    · rw [List.mem_singleton.mp he]
      rfl
  · exact hs e he

theorem Build.Builder.check_isWork (b : Builder) (tools : Tools) (history : Journal) (t : Tree) :
    ∀ e ∈ (b.check tools history t).2.1, e.isWork = true := by
  intro e he
  unfold check at he
  split at he
  · cases he
  · split at he
    · dsimp only at he
      split at he <;> simp only [List.mem_append, List.mem_cons, List.not_mem_nil, or_false] at he
      · obtain rfl | rfl := he <;> rfl
      · obtain (rfl | rfl) | rfl := he <;> rfl
    · rw [List.mem_singleton.mp he]
      rfl

namespace Run

variable {around : Surroundings} {job : Job} {w w₁ w₂ : World} {file : String} {n n' : Nat}
  {failed failed' : List String}

def Unmistakable (names : List String) (label : String) : Prop :=
  ∀ name ∈ names, label ++ ": " ++ "build passed" ≠ "Saved " ++ name

theorem team_tells (h : Unmistakable names label) (strategy : Strategy)
    (client : Option Chat.Client) (b : Build.Builder) :
    (team around strategy client b).Tells label (Event.IsAside names) where
  said tone message hm := by
    refine ⟨rfl, ?_, rfl⟩
    cases tone with
    | success =>
      rw [hm rfl, ← Bool.not_eq_true]
      intro hs
      obtain ⟨name, hn, he⟩ := List.any_eq_true.mp hs
      exact h name hn (beq_iff_eq.mp he)
    | _ => rfl
  asked _ _ := ⟨rfl, rfl, rfl⟩
  building _ _ := ⟨rfl, rfl, rfl⟩
  oracle oracle ho history code instructions e he := by
    obtain ⟨c, -, rfl⟩ := Option.map_eq_some_iff.mp ho
    exact Event.isAside_of_isWork (c.propose_isWork around.service history code instructions e he)
  checker history t e he := Event.isAside_of_isWork (b.check_isWork around.tools history t e he)

structure Tally (names : List String) (told : List Event) (saved : Nat) (failed : List String) :
    Prop where
  closing : ∀ e ∈ told, e.isClosing = false
  saved : told.countP (Event.isSaved names) = saved
  failed : told.filterMap Event.failed? = failed

theorem Tally.append (h : Tally names told n failed) (h' : Tally names told' n' failed') :
    Tally names (told ++ told') (n + n') (failed ++ failed') where
  closing e he := (List.mem_append.mp he).elim (h.closing e) (h'.closing e)
  saved := by rw [List.countP_append, h.saved, h'.saved]
  failed := by rw [List.filterMap_append, h.failed, h'.failed]

theorem tally_asides (h : ∀ e ∈ told, e.IsAside names) : Tally names told 0 [] where
  closing e he := (h e he).1
  saved := List.countP_eq_zero.mpr fun e he => by simp [(h e he).2.1]
  failed := List.filterMap_eq_nil_iff.mpr fun e he => (h e he).2.2

theorem tally_saved (h : Job.nameOf file ∈ names) :
    Tally names [.status .success ("Saved " ++ Job.nameOf file)] 1 [] where
  closing e he := by rw [List.mem_singleton.mp he]; rfl
  saved := by rw [List.countP_singleton, if_pos (Event.isSaved_of_mem h)]
  failed := rfl

def Reports (names : List String) (w w' : World) (saved : Nat) (failed : List String) : Prop :=
  ∃ told, w'.journal = w.journal ++ told ∧ Tally names told saved failed

theorem Reports.trans (h : Reports names w w₁ n failed) (h' : Reports names w₁ w₂ n' failed') :
    Reports names w w₂ (n + n') (failed ++ failed') := by
  obtain ⟨told, ht, htally⟩ := h
  obtain ⟨told', ht', htally'⟩ := h'
  exact ⟨told ++ told', by rw [ht', ht, List.append_assoc], htally.append htally'⟩

theorem reports_heard (h : w.Heard (Event.IsAside names) w₁) : Reports names w w₁ 0 [] := by
  obtain ⟨told, ht, hall⟩ := h
  exact ⟨told, ht, tally_asides hall⟩

theorem reports_asides (h : ∀ e ∈ told, e.IsAside names) (hj : w₁.journal = w.journal ++ told) :
    Reports names w w₁ 0 [] := ⟨told, hj, tally_asides h⟩

theorem reports_refl (w : World) : Reports names w w 0 [] :=
  reports_asides (fun _ he => absurd he List.not_mem_nil) (List.append_nil w.journal).symm

theorem Reports.silent (h : Reports names w w₁ n failed) (hj : w₂.journal = w₁.journal) :
    Reports names w w₂ n failed := by
  obtain ⟨told, ht, htally⟩ := h
  exact ⟨told, hj.trans ht, htally⟩

theorem Reports.noted (h : Reports names w w₁ n failed) {e : Event} (he : e.IsAside names) :
    Reports names w (w₁.note e) n failed := by
  have hnote : Reports names w₁ (w₁.note e) 0 [] :=
    reports_asides (fun _ hm => List.mem_singleton.mp hm ▸ he) rfl
  have h := h.trans hnote
  rwa [Nat.add_zero, List.append_nil] at h

def savesOf : Except Failure Promotion.Decision → Nat
  | .ok .promoted => 1
  | _ => 0

section Promote

open Promotion

variable (gate : Gate) (answerer : Answerer) (draft : Draft)

theorem save_reports (h : Job.nameOf file ∈ names) :
    Reports names w ((Promotion.save draft file (Job.nameOf file)).run w).2
      (savesOf ((Promotion.save draft file (Job.nameOf file)).run w).1) [] := by
  have hcopy : Tally names [.log (copyRecord draft file)] 0 [] :=
    tally_asides fun e he => by rw [List.mem_singleton.mp he]; exact ⟨rfl, rfl, rfl⟩
  rw [run_save]
  cases w.tree.copy draft.path file with
  | error cause => exact ⟨_, rfl, hcopy⟩
  | ok t =>
    have hboth := hcopy.append (tally_saved h)
    exact ⟨_, rfl, hboth⟩

theorem decide_reports (h : Job.nameOf file ∈ names) :
    Reports names w ((Promotion.decide gate answerer draft file (Job.nameOf file)).run w).2
      (savesOf ((Promotion.decide gate answerer draft file (Job.nameOf file)).run w).1) [] := by
  have hasked : ∀ (t : Tree) (answer : Bool),
      Reports names w ⟨t, w.journal ++ gate.prompts file answer⟩ 0 [] := by
    intro t answer
    refine reports_asides (fun e he => ?_) rfl
    unfold Gate.prompts at he
    split at he
    · cases he
    · rw [List.mem_singleton.mp he]
      exact ⟨rfl, rfl, rfl⟩
  have hrun := run_decide gate answerer draft file w
  change (Promotion.decide gate answerer draft file (Job.nameOf file)).run w = _ at hrun
  rw [hrun]
  have hask := hasked w.tree (answerer w.journal (question file))
  cases gate.verdict (answerer w.journal (question file)) with
  | promoted =>
    have hsave := hask.trans (save_reports draft h)
    rwa [Nat.zero_add, List.nil_append] at hsave
  | declined => exact hask.noted ⟨rfl, rfl, rfl⟩
  | dryRun => exact hask.silent (List.append_nil _)
  | unchanged => exact hask.silent (List.append_nil _)

theorem promote_reports (h : Job.nameOf file ∈ names) :
    Reports names w ((Promotion.promote gate answerer draft file).run w).2
      (savesOf ((Promotion.promote gate answerer draft file).run w).1) [] := by
  rw [run_promote]
  cases w.tree.readText file with
  | error cause => exact reports_refl w
  | ok current =>
    dsimp only
    by_cases hc : draft.content = current
    · rw [if_pos hc]
      exact reports_refl w
    · rw [if_neg hc]
      cases w.tree.write draft.path draft.content.toUTF8 with
      | error cause => exact reports_refl w
      | ok t =>
        have hreview : Reports names w ⟨t, w.journal ++ [review draft file current]⟩ 0 [] :=
          reports_asides (fun e he => by rw [List.mem_singleton.mp he]; exact ⟨rfl, rfl, rfl⟩) rfl
        have hdecide := hreview.trans (decide_reports gate answerer draft h)
        rwa [Nat.zero_add, List.nil_append] at hdecide

end Promote

theorem Job.promote_reports (job : Job) (draft : Draft) (h : nameOf file ∈ names) :
    Reports names w ((job.promote draft file).run w).2 (savesOf ((job.promote draft file).run w).1)
      [] := by
  have hp := Run.promote_reports (w := w) job.gate job.answerer draft h
  rw [job.run_promote]
  rcases hr : (Promotion.promote job.gate job.answerer draft file).run w with ⟨_ | decision, w'⟩ <;>
    rw [hr] at hp
  · exact hp
  · have hnote : (Event.notice (.notSaved (nameOf file))).IsAside names := ⟨rfl, rfl, rfl⟩
    dsimp only
    split
    · exact hp.noted hnote
    · exact hp

/-- What the team of a job tells of a file is an aside. -/
def Job.Discreet (job : Job) (names : List String) (file : String) : Prop :=
  ∀ path, job.workspace.mapPath file = .ok path →
    job.team.Tells (Path.ofText path).label (Event.IsAside names)

def promotionsOf : Except Failure FileResult → Nat
  | .ok result => result.isPromoted.toNat
  | .error _ => 0

theorem Job.migrate_reports (hj : job.Discreet names file) (h : nameOf file ∈ names) :
    Reports names w ((job.migrate file).run w).2 (promotionsOf ((job.migrate file).run w).1) [] := by
  rw [job.run_migrate]
  cases hm : job.workspace.mapPath file with
  | error e => exact reports_refl w
  | ok path =>
    dsimp only
    cases hl : Draft.load w.tree path with
    | error e => exact reports_refl w
    | ok draft =>
      have hT := hj path hm
      rw [← (load_eq_ok hl).1] at hT
      have hrepair := reports_heard (Repair.run_heard hT w)
      dsimp only
      cases (Repair.run job.team draft w).status with
      | error e => exact hrepair
      | ok status =>
        have hdone : Reports names w (job.repaired file draft status w) 0 [] :=
          (hrepair.noted ⟨rfl, rfl, rfl⟩).noted ⟨rfl, rfl, rfl⟩
        dsimp only
        split
        · exact hdone
        · have hp := hdone.trans
            (job.promote_reports (Repair.run job.team draft w).session.draft h)
          rw [Nat.zero_add, List.nil_append] at hp
          rcases hr : (job.promote (Repair.run job.team draft w).session.draft file).run
            (job.repaired file draft status w) with ⟨_ | decision, w'⟩ <;> rw [hr] at hp
          · exact hp
          · cases decision <;> exact hp

theorem Job.migrate_ok {result : FileResult}
    (h : (job.migrate file).run w = (.ok result, w₁)) :
    ∃ status decision, result = .done status decision := by
  obtain ⟨-, -, status, -, -, -, ⟨-, hr⟩ | ⟨-, decision, -, hr⟩⟩ := job.migrate_done h
  · exact ⟨status, .unchanged, hr⟩
  · exact ⟨status, decision, hr⟩

theorem Job.process_reports {result : FileResult} (hj : job.Discreet names file)
    (h : nameOf file ∈ names) (hrun : (job.process file (ε := RunError)).run w = (.ok result, w₁)) :
    Reports names w w₁ result.isPromoted.toNat (if result.isFailed then [nameOf file] else []) := by
  have hm := Job.migrate_reports (w := w) hj h
  rw [job.run_process] at hrun
  rcases hr : (job.migrate file).run w with ⟨e | r, w'⟩ <;> rw [hr] at hrun hm <;> cases hrun
  · have hfailed : Reports names w' (w'.announce (.fileFailed (nameOf file) e.full)) 0
        [nameOf file] :=
      ⟨_, rfl, ⟨fun e he => by rw [List.mem_singleton.mp he]; rfl, rfl, rfl⟩⟩
    exact hm.trans hfailed
  · obtain ⟨status, decision, rfl⟩ := job.migrate_ok hr
    exact hm

/-- What is told of some files: those that were promoted are told as saved, and those that failed
as failed, in their order. -/
theorem Job.Processed.reports {done : List (String × FileResult)} (h : job.Processed w done w₁)
    (hj : ∀ x ∈ done, job.Discreet names x.1) (hn : ∀ x ∈ done, nameOf x.1 ∈ names) :
    Reports names w w₁ (done.countP fun x => x.2.isPromoted)
      ((done.filter fun x => x.2.isFailed).map fun x => nameOf x.1) := by
  induction h with
  | none w => exact reports_refl w
  | @next w w₁ w₂ file result done begun ran others ih =>
    have hfirst := Job.process_reports (hj _ List.mem_cons_self) (hn _ List.mem_cons_self) ran
    have hrest := ih (fun x hx => hj x (List.mem_cons_of_mem _ hx))
      fun x hx => hn x (List.mem_cons_of_mem _ hx)
    have hall := hfirst.trans hrest
    rw [List.countP_cons, List.filter_cons, Nat.add_comm]
    cases hp : result.isPromoted <;> cases hf : result.isFailed <;> simpa [hp, hf] using hall

theorem collect_unmistakable (ht : t.Sound) (hp : ∀ s ∈ place, IsName s)
    (h : Sources.collect t place.text = .ok files) :
    ∀ file ∈ files, Unmistakable (files.map Job.nameOf) (Job.nameOf file) := by
  intro file hf name hn he
  obtain ⟨other, ho, rfl⟩ := List.mem_map.mp hn
  obtain ⟨-, rfl⟩ | ⟨start, -, rfl⟩ := Sources.collect_cases h
  · rw [List.mem_singleton.mp hf, List.mem_singleton.mp ho] at he
    have hlen := congrArg String.length he
    simp only [String.length_append] at hlen
    have hl : (": " : String).length + "build passed".length = 14 := by decide
    have hr : ("Saved " : String).length = 6 := by decide
    omega
  · -- the one ends with the extension, the other does not
    obtain ⟨names, hm, rfl⟩ := List.mem_map.mp ho
    obtain ⟨-, -, hb, hsource⟩ := Sources.sorted_found ht.named hp hm
    obtain ⟨before, hbefore⟩ := Path.suffix_of_extension (Sources.isSource_eq_true hsource).2
    have hlast := congrArg (fun s : String => s.toList.getLast?) he
    simp only [String.toList_append, hb, Job.nameOf, ← hbefore, List.getLast?_append] at hlast
    revert hlast
    simp [Sources.sourceExtension]

theorem Job.discreet {place : Place} {b : Build.Builder} {client : Option Chat.Client}
    {strategy : Strategy} (ht : t.Sound) (hp : ∀ s ∈ place, IsName s) (hr : ∀ s ∈ r, IsName s)
    (hc : Sources.collect t place.text = .ok files)
    (hw : job.workspace = ofPlace r) (hteam : job.team = Run.team around strategy client b)
    {names : Place} (hf : Place.text (r ++ names) ∈ files) (hne : names ≠ [])
    (hn : ∀ s ∈ names, IsName s) :
    job.Discreet (files.map nameOf) (Place.text (r ++ names)) := by
  intro path hpath
  rw [hw, mapPath_text hr hne hn] at hpath
  cases hpath
  obtain ⟨above, s, rfl⟩ := (List.eq_nil_or_concat names).resolve_left hne
  have hlabel := collect_unmistakable ht hp hc _ hf
  rw [List.concat_eq_append] at hn hlabel ⊢
  rw [← List.append_assoc] at hlabel ⊢
  rw [nameOf, Path.label_text (List.append_assoc r above [s] ▸ named_append hr hn)] at hlabel
  rw [Path.label_text (List.append_assoc (sandbox r) above [s] ▸
    named_append (named_sandbox hr) hn), hteam]
  exact team_tells hlabel strategy client b

/-- What a run tells of the files that it gets to. -/
theorem Begun.reports {order : Order} {p : Plan} {place r : Place} {b : Build.Builder}
    {done : List (String × FileResult)} {rest : List String} {w₃ : World}
    (h : Begun around order w p job w₂ place r b) (ht : w.tree.Sound) (ho : w.tree.Single)
    (hreaches : job.Reaches p.files w₂ done rest w₃) :
    Reports (p.files.map Job.nameOf) w₂ w₃ (done.countP fun x => x.2.isPromoted)
      ((done.filter fun x => x.2.isFailed).map fun x => Job.nameOf x.1) := by
  obtain ⟨-, rels, hrels, hnames⟩ := h.exists_rels ht ho
  refine hreaches.processed.reports (fun x hx => ?_)
    fun x hx => List.mem_map_of_mem (hreaches.mem hx)
  obtain ⟨names, hn, he⟩ := List.mem_map.mp (hrels ▸ hreaches.mem hx)
  obtain ⟨hne, hnamed⟩ := hnames names hn
  rw [← he]
  exact Job.discreet ht h.placeNamed h.named h.fits.files (by rw [h.job_eq]) (by rw [h.job_eq])
    (he ▸ hreaches.mem hx) hne hnamed

theorem perform_shown {order : Order} {d : Terminal.Display} {s : Summary} {dryRun : Bool}
    {before : Journal} (hok : ((migrate around order).run w).1 = .ok ())
    (hjournal : ((migrate around order).run w).2.journal =
      before ++ [.notice (.summary s dryRun)]) :
    ∃ shown, (Command.perform around order d w).stderr =
      shown ++ Terminal.textOf (d.showSummary s dryRun) := by
  rcases he : (migrate around order).run w with ⟨e | _, w'⟩ <;> rw [he] at hok hjournal
  · cases hok
  · have hj : w'.journal = before ++ [.notice (.summary s dryRun)] := hjournal
    refine ⟨Terminal.textOf d.showWarnings ++ Terminal.transcript d before, ?_⟩
    simp [Command.perform, he, hj, Terminal.transcript, Terminal.textOf,
      Terminal.Display.showEvent, Terminal.Display.showNotice, String.append_assoc]

end Run

end Refit
