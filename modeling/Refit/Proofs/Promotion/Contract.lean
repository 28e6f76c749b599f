import Refit.Promotion.Gate
import Refit.Proofs.Step
import Refit.Proofs.Tree.Shape

/-!
The contract of the promotion gate (`promote_contract`): what it decides, tells and writes, for any
draft, flags and answers. The gate is told once by an equation (`run_promote`); what it does to the
two files is read off from there.
-/

namespace Refit

open Refit.Tree

namespace Tree

variable {t t' : Tree} {path file : String} {p q : Place} {bytes : ByteArray}

/-- Two paths that do not lead to one place. -/
def Apart (t : Tree) (path file : String) : Prop :=
  ∀ spot spot' p, t.spot path = .ok spot → t.spot file = .ok spot' → spot.place? = some p →
    spot'.place? ≠ some p

/-- Writing one of two files leaves the other as it was. -/
theorem Apart.write (h : t.Apart path file) {text : String} (hf : t.LeadsTo file p text.toUTF8)
    (hw : t.write path bytes = .ok t') :
    ∃ q, p ≠ q ∧ t'.LeadsTo path q bytes ∧ t'.LeadsTo file p text.toUTF8 ∧
      ∀ p, p ≠ q → t'.get? p = t.get? p := by
  obtain ⟨q, runnable, hq, rfl⟩ := write_eq_ok hw
  obtain ⟨htakes, spot, hs, ht⟩ := writable_eq_ok hq
  obtain ⟨x, hx⟩ := hf
  have hne : p ≠ q := by
    rintro rfl
    exact h spot _ p hs hx ht.place?_eq rfl
  refine ⟨q, hne, ⟨runnable, spot_put_takes htakes hs ht⟩, ⟨x, spot_put_found htakes hne hx⟩, ?_⟩
  intro p hp
  rw [get?_put _ _ _ _ htakes.1, if_neg hp]

/-- A file that is copied over another is then found on both paths. -/
theorem LeadsTo.copied {bytes' : ByteArray} (hs : t.LeadsTo path q bytes)
    (hf : t.LeadsTo file p bytes') (hne : p ≠ q) :
    ∃ t', t.copy path file = .ok t' ∧ t'.LeadsTo path q bytes ∧ t'.LeadsTo file p bytes ∧
      ∀ o, o ≠ p → t'.get? o = t.get? o := by
  obtain ⟨runnable, hc⟩ := hs.copy hf hne
  obtain ⟨x, hs⟩ := hs
  obtain ⟨y, hf⟩ := hf
  obtain ⟨hp, hg⟩ := spot_file hf
  have htakes : TakesFile t p := ⟨hp, .inr ⟨_, _, hg⟩⟩
  refine ⟨_, hc, ⟨x, spot_put_found htakes hne.symm hs⟩,
    ⟨runnable, spot_put_takes htakes hf rfl⟩, ?_⟩
  intro o ho
  rw [get?_put _ _ _ _ hp, if_neg ho]

end Tree

namespace Promotion

variable {gate : Gate} {answerer : Answerer} {draft : Draft} {file name current : String} {w : World}

/-- What the flags and an answer decide about a file that is not as its draft is. -/
def Gate.verdict (gate : Gate) (answer : Bool) : Decision :=
  if gate.dryRun then .dryRun
  else if gate.autoApprove || answer then .promoted
  else .declined

/-- The diff that is shown, against the file as it is. -/
def review (draft : Draft) (file current : String) : Event :=
  .diff file
    (draft.diff current ("Original: " ++ (Path.ofText file).label) "Migrated (Sandbox)")

def question (file : String) : String := "Apply changes to " ++ (Path.ofText file).label ++ "?"

/-- A question is asked only where no flag answers it. -/
def Gate.prompts (gate : Gate) (file : String) (answer : Bool) : List Event :=
  if gate.dryRun || gate.autoApprove then [] else [.prompt (question file) answer]

/-- What the gate tells after it has decided. -/
def closing (draft : Draft) (file : String) : Decision → List Event
  | .promoted => [.log (copyRecord draft file),
      .status .success ("Saved " ++ (Path.ofText file).label)]
  | .declined => [.status .info ("Skipped " ++ (Path.ofText file).label)]
  | _ => []

def answerTo (answerer : Answerer) (draft : Draft) (file current : String) (w : World) : Bool :=
  answerer (w.journal ++ [review draft file current]) (question file)

theorem run_save (draft : Draft) (file name : String) (w : World) :
    (save draft file name).run w =
      match w.tree.copy draft.path file with
      | .ok t => (.ok .promoted,
          ⟨t, w.journal ++ [.log (copyRecord draft file), .status .success ("Saved " ++ name)]⟩)
      | .error cause => (.error (.file file cause), w.log (copyRecord draft file)) := by
  unfold save
  rw [Step.log, Step.run_note_bind, Step.run_change_bind]
  change (match w.tree.copy draft.path file with | .ok t => _ | .error cause => _) = _
  cases w.tree.copy draft.path file with
  | error cause => rfl
  | ok t =>
    change (_, World.mk t ((w.journal ++ [_]) ++ [_])) = _
    rw [List.append_assoc]
    rfl

/-- The draft has been written and shown: the rest is the verdict and, if that is so, the copy. -/
theorem run_decide (gate : Gate) (answerer : Answerer) (draft : Draft) (file : String) (w : World) :
    let answer := answerer w.journal (question file)
    let asked : World := ⟨w.tree, w.journal ++ gate.prompts file answer⟩
    (decide gate answerer draft file (Path.ofText file).label).run w =
      match gate.verdict answer with
      | .promoted => (save draft file (Path.ofText file).label).run asked
      | decision => (.ok decision, asked.notes (closing draft file decision)) := by
  obtain ⟨dryRun, autoApprove⟩ := gate
  cases dryRun with
  | true => simp [decide, Gate.verdict, Gate.prompts, closing, World.notes]
  | false =>
    cases autoApprove with
    | true => simp [decide, Gate.verdict, Gate.prompts]
    | false =>
      unfold decide
      rw [if_neg (by simp), if_neg (by simp), Step.run_bind]
      change (if answerer w.journal (question file) = true then _ else _ : Action Decision).run
        (w.note (.prompt (question file) (answerer w.journal (question file)))) = _
      cases answerer w.journal (question file) <;> rfl

theorem run_promote (gate : Gate) (answerer : Answerer) (draft : Draft) (file : String)
    (w : World) :
    (promote gate answerer draft file).run w =
      match w.tree.readText file with
      | .error cause => (.error (.file file cause), w)
      | .ok current =>
        if draft.content = current then (.ok .unchanged, w)
        else
          match w.tree.write draft.path draft.content.toUTF8 with
          | .error cause => (.error (.file draft.path cause), w)
          | .ok t => (decide gate answerer draft file (Path.ofText file).label).run
              ⟨t, w.journal ++ [review draft file current]⟩ := by
  unfold promote
  rw [Step.run_inspect_bind]
  cases w.tree.readText file with
  | error cause => rfl
  | ok current =>
    dsimp only
    by_cases hc : draft.content = current
    · rw [if_neg (by simp [Draft.changedFrom, hc]), if_pos hc]
      rfl
    · rw [if_pos (by simp [Draft.changedFrom, hc]), if_neg hc, Step.run_change_bind]
      cases w.tree.write draft.path draft.content.toUTF8 <;> rfl

/-- What a promotion has come to that had something to show: the decision, what was told, and the
two files. -/
structure Ended (gate : Gate) (answerer : Answerer) (draft : Draft) (file current : String)
    (w : World) (decision : Decision) (w' : World) : Prop where
  verdict : decision = gate.verdict (answerTo answerer draft file current w)
  journal : w'.journal = w.journal ++ review draft file current ::
    (gate.prompts file (answerTo answerer draft file current w) ++ closing draft file decision)
  sandbox : w'.tree.readText draft.path = .ok draft.content
  original : w'.tree.readText file =
    .ok (if decision = .promoted then draft.content else current)
  elsewhere : ∀ p, (∀ spot, w.tree.spot draft.path = .ok spot → spot.place? ≠ some p) →
    (∀ spot, w.tree.spot file = .ok spot → spot.place? ≠ some p) → w'.tree.get? p = w.tree.get? p

theorem decide_ended {t : Tree} {p q : Place} (hne : p ≠ q)
    (hpath : t.LeadsTo draft.path q draft.content.toUTF8)
    (hfile : t.LeadsTo file p current.toUTF8)
    (hspots : (∃ spot, w.tree.spot draft.path = .ok spot ∧ spot.place? = some q) ∧
      ∃ spot, w.tree.spot file = .ok spot ∧ spot.place? = some p)
    (halike : ∀ p, p ≠ q → t.get? p = w.tree.get? p) :
    ∃ decision w', (decide gate answerer draft file (Path.ofText file).label).run
        ⟨t, w.journal ++ [review draft file current]⟩ = (.ok decision, w') ∧
      Ended gate answerer draft file current w decision w' := by
  obtain ⟨⟨spot, hspot, hq⟩, spot', hspot', hp⟩ := hspots
  have hrun := run_decide gate answerer draft file ⟨t, w.journal ++ [review draft file current]⟩
  change _ = match gate.verdict (answerTo answerer draft file current w) with
    | .promoted => _ | decision => _ at hrun
  rw [hrun]
  by_cases hv : gate.verdict (answerTo answerer draft file current w) = .promoted
  · obtain ⟨t', hcopy, hpath', hfile', halike'⟩ := hpath.copied hfile hne
    rw [hv, run_save]
    simp only [hcopy]
    refine ⟨.promoted, _, rfl, hv.symm, ?_, hpath'.readText, hfile'.readText, ?_⟩
    · simp [closing, answerTo]
    intro o hoq hop
    rw [halike' o fun he => hop _ hspot' (he ▸ hp), halike o fun he => hoq _ hspot (he ▸ hq)]
  · have hother : ∀ decision, decision ≠ .promoted →
        gate.verdict (answerTo answerer draft file current w) = decision →
        Ended gate answerer draft file current w decision
          ⟨t, ((w.journal ++ [review draft file current]) ++
            gate.prompts file (answerTo answerer draft file current w)) ++
              closing draft file decision⟩ := by
      intro decision hd hdv
      refine ⟨hdv.symm, by simp, hpath.readText, ?_, fun o hoq _ => ?_⟩
      · rw [if_neg hd]
        exact hfile.readText
      · exact halike o fun he => hoq _ hspot (he ▸ hq)
    cases hd : gate.verdict (answerTo answerer draft file current w) with
    | promoted => exact absurd hd hv
    | unchanged => exact ⟨_, _, rfl, hother _ nofun hd⟩
    | dryRun => exact ⟨_, _, rfl, hother _ nofun hd⟩
    | declined => exact ⟨_, _, rfl, hother _ nofun hd⟩

theorem promote_ended {t : Tree} (hapart : w.tree.Apart draft.path file)
    (hread : w.tree.readText file = .ok current) (hne : draft.content ≠ current)
    (hwrite : w.tree.write draft.path draft.content.toUTF8 = .ok t) :
    ∃ decision w', (promote gate answerer draft file).run w = (.ok decision, w') ∧
      Ended gate answerer draft file current w decision w' := by
  obtain ⟨p, hfile⟩ := leadsTo_of_readText hread
  obtain ⟨q, hpq, hpath, hfile', halike⟩ := hapart.write hfile hwrite
  obtain ⟨o, runnable, ho, rfl⟩ := write_eq_ok hwrite
  obtain ⟨htakes, spot, hspot, hplace⟩ := writable_eq_ok ho
  obtain rfl : o = q := by
    obtain ⟨x, hq⟩ := hpath
    rw [spot_put_takes htakes hspot hplace] at hq
    cases hq
    rfl
  obtain ⟨y, hy⟩ := hfile
  rw [run_promote, hread]
  simp only [hwrite, if_neg hne]
  exact decide_ended hpq hpath hfile' ⟨⟨spot, hspot, hplace.place?_eq⟩, _, hy, rfl⟩ halike

/-- A file that is as its draft is, is left alone. Any other is compared with the draft, shown once
and decided about; it changes only if it is promoted, and then it is as the draft is. A gate fails
only where the file cannot be read or the draft cannot be written, and changes nothing then. -/
theorem promote_contract (gate : Gate) (answerer : Answerer) (draft : Draft) (file : String)
    (w : World) (hapart : w.tree.Apart draft.path file) :
    let ended := (promote gate answerer draft file).run w
    (w.tree.readText file = .ok draft.content → ended = (.ok .unchanged, w)) ∧
    (∀ decision, ended.1 = .ok decision → w.tree.readText file ≠ .ok draft.content →
      ∃ current, w.tree.readText file = .ok current ∧
        Ended gate answerer draft file current w decision ended.2) ∧
    (∀ e, ended.1 = .error e → ended.2 = w ∧
      ∃ cause, w.tree.readText file = .error cause ∨
        w.tree.write draft.path draft.content.toUTF8 = .error cause) ∧
    (ended.1 = .ok .promoted →
      (promote gate answerer draft file).run ended.2 = (.ok .unchanged, ended.2)) := by
  intro ended
  have hsame : ∀ {w : World}, w.tree.readText file = .ok draft.content →
      (promote gate answerer draft file).run w = (.ok .unchanged, w) := by
    intro w hread
    rw [run_promote, hread]
    exact if_pos rfl
  cases hread : w.tree.readText file with
  | error cause =>
    have hended : ended = (.error (.file file cause), w) := by
      simp only [ended, run_promote, hread]
    rw [hended]
    exact ⟨nofun, nofun, fun _ _ => ⟨rfl, cause, .inl rfl⟩, nofun⟩
  | ok current =>
    by_cases hc : draft.content = current
    · subst hc
      have hended : ended = (.ok .unchanged, w) := hsame hread
      rw [hended]
      exact ⟨fun _ => rfl, fun _ _ hn => absurd rfl hn, nofun, nofun⟩
    · refine ⟨fun h => absurd (Except.ok.inj h).symm hc, ?_⟩
      cases hwrite : w.tree.write draft.path draft.content.toUTF8 with
      | error cause =>
        have hended : ended = (.error (.file draft.path cause), w) := by
          simp only [ended, run_promote, hread, hwrite, if_neg hc]
        rw [hended]
        exact ⟨nofun, fun _ _ => ⟨rfl, cause, .inr rfl⟩, nofun⟩
      | ok t =>
        obtain ⟨decision, w', hended, h⟩ :=
          @promote_ended gate answerer draft file current w t hapart hread hc hwrite
        change ended = (.ok decision, w') at hended
        rw [hended]
        refine ⟨?_, nofun, fun hp => ?_⟩
        · rintro _ ⟨⟩ -
          exact ⟨current, rfl, h⟩
        · cases hp
          exact hsame h.original

def reviewed : World :=
  ⟨⟨[(["A.java"], .file "old".toUTF8 true), (["sandbox"], .directory),
    (["sandbox", "A.java"], .file "stale".toUTF8 false)]⟩, []⟩

def reviewedDraft : Draft := ⟨"/sandbox/A.java", "old", "new"⟩

theorem reviewed_apart : reviewed.tree.Apart reviewedDraft.path "/A.java" := by
  intro spot spot' p hs hs' hp
  have h : reviewed.tree.spot reviewedDraft.path =
      .ok (.found ["sandbox", "A.java"] (.file "stale".toUTF8 false)) := by rfl
  have h' : reviewed.tree.spot "/A.java" = .ok (.found ["A.java"] (.file "old".toUTF8 true)) := by
    rfl
  rw [h] at hs
  rw [h'] at hs'
  cases hs
  cases hs'
  cases hp
  decide

theorem promote_contract_asked :
    ∃ w', (promote ⟨false, false⟩ (fun _ _ => true) reviewedDraft "/A.java").run reviewed =
        (.ok .promoted, w') ∧
      w'.tree.readText "/A.java" = .ok "new" ∧
      (promote ⟨false, false⟩ (fun _ _ => true) reviewedDraft "/A.java").run w' =
        (.ok .unchanged, w') := by
  obtain ⟨-, hended, -, hagain⟩ := promote_contract ⟨false, false⟩ (fun _ _ => true) reviewedDraft
    "/A.java" reviewed reviewed_apart
  have hp : ((promote ⟨false, false⟩ (fun _ _ => true) reviewedDraft "/A.java").run reviewed).1 =
      .ok .promoted := by rfl
  have hread : reviewed.tree.readText "/A.java" = .ok "old" := by rfl
  have hne : reviewed.tree.readText "/A.java" ≠ .ok reviewedDraft.content := by
    rw [hread]
    exact fun h => absurd (Except.ok.inj h) (by decide)
  obtain ⟨current, -, h⟩ := hended .promoted hp hne
  exact ⟨_, Prod.ext hp rfl, h.original, hagain hp⟩

end Promotion

end Refit
