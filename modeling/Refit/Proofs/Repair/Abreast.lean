import Refit.Proofs.Abreast
import Refit.Proofs.Tree.Spot
import Refit.Repair.Loop

namespace Refit.Repair

variable {R : World → World → Prop} {team team' : Team} {oracle oracle' : Oracle}
  {s s' : Session} {w w' : World}

/-- Two who propose the same in worlds that are related. -/
def Oracle.Agrees (R : World → World → Prop) (oracle oracle' : Oracle) : Prop :=
  ∀ w w' code instructions, R w w' →
    (oracle.propose w.journal code instructions).1 =
        (oracle'.propose w'.journal code instructions).1 ∧
      R (w.notes (oracle.propose w.journal code instructions).2)
        (w'.notes (oracle'.propose w'.journal code instructions).2)

/-- Two whose builds end the same in worlds that are related. -/
def Checker.Agrees (R : World → World → Prop) (checker checker' : Checker) : Prop :=
  ∀ w w', R w w' →
    (checker.check w.journal w.tree).1 = (checker'.check w'.journal w'.tree).1 ∧
      R { w.notes (checker.check w.journal w.tree).2.1 with
          tree := (checker.check w.journal w.tree).2.2 }
        { w'.notes (checker'.check w'.journal w'.tree).2.1 with
          tree := (checker'.check w'.journal w'.tree).2.2 }

/-- Two teams that work the same way in worlds that are related. -/
structure Team.Agrees (R : World → World → Prop) (team team' : Team) : Prop where
  strategy : team'.strategy = team.strategy
  noted : Step.Notable R
  written : ∀ w w' path bytes, R w w' →
    Both (fun t u => R { w with tree := t } { w' with tree := u }) (w.tree.write path bytes)
      (w'.tree.write path bytes)
  oracle : (team.oracle = none ∧ team'.oracle = none) ∨ ∃ oracle oracle',
    team.oracle = some oracle ∧ team'.oracle = some oracle' ∧ oracle.Agrees R oracle'
  checker : team.checker.Agrees R team'.checker

/-- Two repairs that are equally far, in worlds that are related. -/
def Session.Beside (R : World → World → Prop) (s s' : Session) : Prop :=
  ∃ w', s' = { s with world := w' } ∧ R s.world w'

namespace Session.Beside

theorem visit (h : Beside R s s') (p : Phase) : Beside R (s.visit p) (s'.visit p) := by
  obtain ⟨w', rfl, hw⟩ := h
  exact ⟨w', rfl, hw⟩

theorem say (h : Beside R s s') (hR : Step.Notable R) (tone : Tone) (message : String) :
    Beside R (s.say tone message) (s'.say tone message) := by
  obtain ⟨w', rfl, hw⟩ := h
  exact ⟨_, rfl, hR _ _ _ hw⟩

theorem ask (h : Beside R s s') (hR : Step.Notable R) (ho : oracle.Agrees R oracle')
    (code instructions : String) :
    (s.ask oracle code instructions).1 = (s'.ask oracle' code instructions).1 ∧
      Beside R (s.ask oracle code instructions).2 (s'.ask oracle' code instructions).2 := by
  obtain ⟨w', rfl, hw⟩ := h
  obtain ⟨hreply, hworlds⟩ :=
    ho _ _ code instructions (hR _ _ (.asked code instructions) hw)
  exact ⟨hreply, _, rfl, hworlds⟩

theorem place (h : Beside R s s') (hR : Step.Notable R) (anchor : String) (attempt : Nat)
    (proposal : String) :
    Beside R (s.place anchor attempt proposal) (s'.place anchor attempt proposal) := by
  obtain ⟨w', rfl, hw⟩ := h
  unfold Session.place
  dsimp only
  split
  · exact ⟨w', rfl, hw⟩
  · exact ⟨_, rfl, hR _ _ _ hw⟩

/-- Both drafts are written, and then both files hold the same, or neither is. -/
theorem persist (h : Beside R s s')
    (hw : ∀ w w' path bytes, R w w' →
      Both (fun t u => R { w with tree := t } { w' with tree := u }) (w.tree.write path bytes)
        (w'.tree.write path bytes)) :
    Both (fun u u' => Beside R u u' ∧
        u.world.tree.read u.draft.path = u'.world.tree.read u.draft.path) s.persist s'.persist := by
  obtain ⟨w', rfl, hr⟩ := h
  have hb := hw _ _ s.draft.path s.draft.content.toUTF8 hr
  unfold Session.persist Draft.persist
  dsimp only
  cases ht : s.world.tree.write s.draft.path s.draft.content.toUTF8 <;>
    cases hu : w'.tree.write s.draft.path s.draft.content.toUTF8 <;> rw [ht, hu] at hb
  · cases hb
    exact rfl
  · exact hb.elim
  · exact hb.elim
  · exact ⟨⟨_, rfl, hb⟩, (Tree.read_write ht).trans (Tree.read_write hu).symm⟩

theorem build (h : Beside R s s') (hR : Step.Notable R) {checker checker' : Checker}
    (hc : checker.Agrees R checker')
    (hd : s.world.tree.read s.draft.path = s'.world.tree.read s.draft.path) :
    (s.build checker).1 = (s'.build checker').1 ∧
      Beside R (s.build checker).2 (s'.build checker').2 := by
  obtain ⟨w', rfl, hw⟩ := h
  obtain ⟨houtcome, hworlds⟩ := hc _ _
    (hR _ _ (.building s.draft.content (w'.tree.read s.draft.path).toOption) hw)
  dsimp only at hd
  unfold Session.build
  dsimp only
  rw [hd]
  exact ⟨houtcome, _, rfl, hworlds⟩

end Session.Beside

/-- Two repairs end alike. -/
def Result.Beside (R : World → World → Prop) (r r' : Result) : Prop :=
  r.status = r'.status ∧ Session.Beside R r.session r'.session

theorem finish_beside (h : Session.Beside R s s') (status : Status) :
    Result.Beside R (finish s status) (finish s' status) := ⟨rfl, h.visit .done⟩

theorem attempt_beside (ht : team.Agrees R team') (ho : oracle.Agrees R oracle') {left : Nat}
    (ih : ∀ n, left = n + 1 → ∀ attempt code instructions {s s'}, Session.Beside R s s' →
      Result.Beside R (attempts team oracle n attempt code instructions s)
        (attempts team' oracle' n attempt code instructions s'))
    (attempt : Nat) (code instructions : String) (h : Session.Beside R s s') :
    Result.Beside R (attempts team oracle left attempt code instructions s)
      (attempts team' oracle' left attempt code instructions s') := by
  have hR := ht.noted
  rw [attempts.eq_def, attempts.eq_def team' oracle' left attempt code instructions s', ht.strategy]
  dsimp only
  have hopened : Session.Beside R
      (if attempt = 0 then (s.visit .verifying).say .info "requesting a rewrite"
        else s.visit .verifying)
      (if attempt = 0 then (s'.visit .verifying).say .info "requesting a rewrite"
        else s'.visit .verifying) := by
    split
    · exact (h.visit _).say hR _ _
    · exact h.visit _
  obtain ⟨hreply, hasked⟩ := hopened.ask hR ho code instructions
  generalize (Session.ask _ oracle code instructions) = a at hreply hasked ⊢
  generalize (Session.ask _ oracle' code instructions) = a' at hreply hasked ⊢
  obtain ⟨reply, s₁⟩ := a
  obtain ⟨reply', s₁'⟩ := a'
  dsimp only at hreply hasked
  subst hreply
  cases reply with
  | none => exact finish_beside ((hasked.say hR _ _).visit _) _
  | some proposal =>
    dsimp only
    have hplaced := hasked.place hR team.strategy.anchor attempt proposal
    have hwritten := hplaced.persist ht.written
    cases hu : (s₁.place team.strategy.anchor attempt proposal).persist <;>
      cases hu' : (s₁'.place team.strategy.anchor attempt proposal).persist <;>
      rw [hu, hu'] at hwritten
    · cases hwritten
      exact ⟨rfl, hplaced⟩
    · exact hwritten.elim
    · exact hwritten.elim
    · rename_i u u'
      dsimp only
      obtain ⟨hpersisted, hdisk⟩ := hwritten
      obtain ⟨houtcome, hbuilt⟩ := hpersisted.build hR ht.checker hdisk
      rcases hb : u.build team.checker with ⟨outcome, v⟩
      rcases hb' : u'.build team'.checker with ⟨outcome', v'⟩
      rw [hb, hb'] at houtcome hbuilt
      dsimp only at houtcome hbuilt
      subst houtcome
      cases outcome with
      | success => exact finish_beside ((hbuilt.say hR _ _).visit _) _
      | failed diagnostic =>
        have hretrying := hbuilt.visit .retrying
        cases left with
        | zero => exact finish_beside ((hretrying.say hR _ _).visit _) _
        | succ n => exact ih n rfl _ _ _ (hretrying.say hR _ _)

theorem attempts_beside (ht : team.Agrees R team') (ho : oracle.Agrees R oracle')
    (left attempt : Nat) (code instructions : String) (h : Session.Beside R s s') :
    Result.Beside R (attempts team oracle left attempt code instructions s)
      (attempts team' oracle' left attempt code instructions s') := by
  induction left generalizing attempt code instructions s s' with
  | zero =>
    exact attempt_beside ht ho (fun _ hn => absurd hn.symm (Nat.succ_ne_zero _)) attempt code
      instructions h
  | succ left ih =>
    refine attempt_beside ht ho ?_ attempt code instructions h
    rintro _ ⟨⟩ attempt code instructions s s' h
    exact ih attempt code instructions h

theorem run_abreast (ht : team.Agrees R team') (draft : Draft) (h : R w w') :
    Result.Beside R (run team draft w) (run team' draft w') := by
  have hstart : Session.Beside R { draft, world := w } { draft, world := w' } := ⟨w', rfl, h⟩
  have hopened : Session.Beside R
      ({ draft := draft.applyRules team.strategy.rules, world := w,
         trace := [.idle, .screening, .applying, .awaiting] })
      ({ draft := draft.applyRules team.strategy.rules, world := w',
         trace := [.idle, .screening, .applying, .awaiting] }) := ⟨w', rfl, h⟩
  unfold run
  rw [ht.strategy]
  dsimp only
  split
  · simp only [Session.visit]
    cases (draft.applyRules team.strategy.rules).unit? team.strategy.anchor with
    | none => exact finish_beside hopened _
    | some unit =>
      obtain ⟨ho, ho'⟩ | ⟨oracle, oracle', ho, ho', hagrees⟩ := ht.oracle
      · rw [ho, ho']
        exact finish_beside hopened _
      · rw [ho, ho']
        exact attempts_beside ht hagrees _ _ _ _ hopened
  · exact finish_beside (hstart.visit .screening) _

end Refit.Repair
