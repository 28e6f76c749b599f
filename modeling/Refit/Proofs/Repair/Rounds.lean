import Refit.Repair.Loop

namespace Refit.Repair

open Text

/-- One proposal and its build. `built` is the world that the checker sees. -/
structure Round where
  proposal : String
  draft : Draft
  built : World
  outcome : Build.Outcome

/-- What there is when the first request is due: a unit, with the text before and after it, in a
draft to which the rules have been applied. -/
structure Opening where
  team : Team
  oracle : Oracle
  before : List Char
  unit : List Char
  after : List Char
  draft : Draft
  world : World

namespace Opening

def say (o : Opening) (w : World) (tone : Tone) (message : String) : World :=
  w.say tone (o.draft.label ++ ": " ++ message)

def spliced (o : Opening) (proposal : String) : Draft :=
  { o.draft with content := String.ofList (o.before ++ (proposal.toList ++ o.after)) }

@[simp] theorem spliced_path (o : Opening) (proposal : String) :
    (o.spliced proposal).path = o.draft.path := rfl

@[simp] theorem spliced_opened (o : Opening) (proposal : String) :
    (o.spliced proposal).opened = o.draft.opened := rfl

@[simp] theorem spliced_label (o : Opening) (proposal : String) :
    (o.spliced proposal).label = o.draft.label := rfl

def left (o : Opening) (r : Round) : World :=
  ⟨(o.team.checker.check r.built.journal r.built.tree).2.2,
    r.built.journal ++ (o.team.checker.check r.built.journal r.built.tree).2.1⟩

def diagnostic : Build.Outcome → String
  | .success => ""
  | .failed d => d

/-- What is asked for after some rounds: a new version of the unit at first, and from then on a fix
of the last proposal with regard to the build of it. -/
def request (o : Opening) (prior : List Round) : String × String :=
  match prior.getLast? with
  | none => (String.ofList o.unit, o.team.strategy.initialInstructions (String.ofList o.unit))
  | some r =>
    (r.proposal, o.team.strategy.fixInstructions r.proposal (diagnostic r.outcome))

def failureNote (attempt : Nat) (next : String) : String :=
  "attempt " ++ toString attempt ++ " failed, " ++ next

/-- The world in which the request after some rounds is made. -/
def due (o : Opening) (prior : List Round) : World :=
  match prior.getLast? with
  | none => o.say o.world .info "requesting a rewrite"
  | some r =>
    o.say (o.left r) .warning
      (failureNote prior.length "requesting a fix")

def asking (o : Opening) (prior : List Round) : World :=
  (o.due prior).note (.asked (o.request prior).1 (o.request prior).2)

def reply (o : Opening) (prior : List Round) : Option String × List Event :=
  o.oracle.propose (o.asking prior).journal (o.request prior).1 (o.request prior).2

def answered (o : Opening) (prior : List Round) : World :=
  (o.asking prior).notes (o.reply prior).2

def lastDraft (o : Opening) (prior : List Round) : Draft :=
  match prior.getLast? with
  | none => o.draft
  | some r => r.draft

/-- The phases gone through when the request after some rounds is due. -/
def trace (prior : List Round) : List Phase :=
  [.idle, .screening, .applying, .awaiting] ++ prior.flatMap fun _ => [.verifying, .retrying]

/-- A round follows from those before it: its proposal is what the oracle replies, it is put in the
place of the unit and written, and then it is built. -/
structure Follows (o : Opening) (prior : List Round) (r : Round) : Prop where
  reply : (o.reply prior).1 = some r.proposal
  draft : r.draft = o.spliced r.proposal
  written : r.draft.persist (o.due prior).tree = .ok r.built.tree
  journal : r.built.journal = (o.answered prior).journal ++
    [.building r.draft.content (r.built.tree.read r.draft.path).toOption]
  outcome : r.outcome = (o.team.checker.check r.built.journal r.built.tree).1

/-- Rounds held one after the other. -/
inductive Held (o : Opening) : List Round → Prop
  | start : Held o []
  | next {prior : List Round} {r : Round} (held : Held o prior) (follows : o.Follows prior r) :
      Held o (prior ++ [r])

/-- How the attempts end after some rounds. -/
inductive Ended (o : Opening) (rounds : List Round) (result : Result) : Prop
  /-- The oracle has no proposal. -/
  | refused
      (few : rounds.length < maxAttempts)
      (failed : ∀ r ∈ rounds, r.outcome ≠ .success)
      (reply : (o.reply rounds).1 = none)
      (status : result.status = .ok (.unverified (.noProposal rounds.length)))
      (requested : result.session.requested = rounds.length + 1)
      (trace : result.session.trace = trace rounds ++ [.verifying, .exhausted, .done])
      (draft : result.session.draft = o.lastDraft rounds)
      (world : result.session.world =
        o.say (o.answered rounds) .warning "no rewrite proposal available")
  /-- A proposal cannot be written. -/
  | unwritable (proposal : String) (failure : Failure)
      (few : rounds.length < maxAttempts)
      (failed : ∀ r ∈ rounds, r.outcome ≠ .success)
      (reply : (o.reply rounds).1 = some proposal)
      (written : (o.spliced proposal).persist (o.due rounds).tree = .error failure)
      (status : result.status = .error failure)
      (requested : result.session.requested = rounds.length + 1)
      (trace : result.session.trace = trace rounds ++ [.verifying])
      (draft : result.session.draft = o.spliced proposal)
      (world : result.session.world = o.answered rounds)
  /-- The build of the last round passes. -/
  | passed (prior : List Round) (r : Round)
      (rounds_eq : rounds = prior ++ [r])
      (few : prior.length < maxAttempts)
      (failed : ∀ r ∈ prior, r.outcome ≠ .success)
      (outcome : r.outcome = .success)
      (status : result.status = .ok (.verified prior.length))
      (requested : result.session.requested = rounds.length)
      (trace : result.session.trace = trace prior ++ [.verifying, .verified, .done])
      (draft : result.session.draft = r.draft)
      (world : result.session.world = o.say (o.left r) .success "build passed")
  /-- The build of the last round fails and no more are left. -/
  | spent (prior : List Round) (r : Round) (d : String)
      (rounds_eq : rounds = prior ++ [r])
      (all : rounds.length = maxAttempts)
      (failed : ∀ r ∈ prior, r.outcome ≠ .success)
      (outcome : r.outcome = .failed d)
      (status : result.status = .ok (.unverified (.budgetSpent d)))
      (requested : result.session.requested = rounds.length)
      (trace : result.session.trace = trace rounds ++ [.exhausted, .done])
      (draft : result.session.draft = r.draft)
      (world : result.session.world =
        o.say (o.left r) .error (failureNote rounds.length "no attempts left"))

end Opening

namespace Session

def Seated (s : Session) (anchor : String) (before after : List Char) : Prop :=
  ∃ span inside, (s.placed <|> s.draft.locate anchor) = some span ∧
    span.split? s.draft.content.toList = some (before, inside, after)

theorem place_eq {s : Session} {anchor : String} {before after : List Char}
    (h : s.Seated anchor before after) (attempt : Nat) (proposal : String) :
    s.place anchor attempt proposal =
      { s with
        draft := { s.draft with content := String.ofList (before ++ (proposal.toList ++ after)) }
        placed := some ⟨byteSize before, byteSize before + byteSize proposal.toList⟩ } := by
  obtain ⟨span, inside, hl, hs⟩ := h
  simp [place, hl, Draft.replaceSpan, hs, Span.start_of_split? hs]

theorem seated_of_placed {s : Session} {anchor : String} {before inside after : List Char}
    (hp : s.placed = some ⟨byteSize before, byteSize before + byteSize inside⟩)
    (hc : s.draft.content.toList = before ++ (inside ++ after)) :
    s.Seated anchor before after := by
  refine ⟨_, inside, by rw [hp]; rfl, ?_⟩
  rw [hc]
  exact Span.split?_between before inside after

end Session

structure AtRequest (o : Opening) (prior : List Round) (s : Session) : Prop where
  held : o.Held prior
  failed : ∀ r ∈ prior, r.outcome ≠ .success
  world : (if prior.length = 0 then s.say .info "requesting a rewrite" else s).world = o.due prior
  requested : s.requested = prior.length
  trace : s.trace = Opening.trace prior
  draft : s.draft = o.lastDraft prior
  seated : s.Seated o.team.strategy.anchor o.before o.after

variable {o : Opening} {prior : List Round} {s : Session} {r : Round}

theorem Opening.Held.mem (h : o.Held prior) (hr : r ∈ prior) : ∃ prior, o.Follows prior r := by
  induction h with
  | start => cases hr
  | next held follows ih =>
    obtain hr | hr := List.mem_append.mp hr
    · exact ih hr
    · rw [List.mem_singleton.mp hr]
      exact ⟨_, follows⟩

def asker (prior : List Round) (s : Session) : Session :=
  let s := s.visit .verifying
  if prior.length = 0 then s.say .info "requesting a rewrite" else s

theorem asker_eq (h : AtRequest o prior s) : asker prior s =
    { s with world := o.due prior, trace := Opening.trace prior ++ [.verifying] } := by
  have hw := h.world
  unfold asker
  split
  · rename_i h0
    rw [if_pos h0] at hw
    simp only [Session.visit, Session.say, Session.note, Draft.label] at hw ⊢
    rw [hw, h.trace]
  · rename_i h0
    rw [if_neg h0] at hw
    simp only [Session.visit]
    rw [hw, h.trace]

theorem ask_asker (h : AtRequest o prior s) :
    (asker prior s).ask o.oracle (o.request prior).1 (o.request prior).2 =
      ((o.reply prior).1,
        { s with
          world := o.answered prior
          requested := prior.length + 1
          trace := Opening.trace prior ++ [.verifying] }) := by
  rw [asker_eq h, Session.ask, ← h.requested]
  rfl

theorem Opening.Held.lastDraft_path (h : o.Held prior) :
    (o.lastDraft prior).path = o.draft.path := by
  cases h with
  | start => rfl
  | next held follows => simp [Opening.lastDraft, follows.draft]

theorem Opening.Held.lastDraft_opened (h : o.Held prior) :
    (o.lastDraft prior).opened = o.draft.opened := by
  cases h with
  | start => rfl
  | next held follows => simp [Opening.lastDraft, follows.draft]

def roundOf (o : Opening) (prior : List Round) (proposal : String) (t : Tree) : Round :=
  let draft := o.spliced proposal
  let journal := (o.answered prior).journal ++
    [.building draft.content (t.read draft.path).toOption]
  ⟨proposal, draft, ⟨t, journal⟩, (o.team.checker.check journal t).1⟩

theorem follows_roundOf {proposal : String} {t : Tree} (hr : (o.reply prior).1 = some proposal)
    (hw : (o.spliced proposal).persist (o.due prior).tree = .ok t) :
    o.Follows prior (roundOf o prior proposal t) :=
  ⟨hr, rfl, hw, rfl, rfl⟩

def placedSession (o : Opening) (prior : List Round) (proposal : String) : Session where
  draft := o.spliced proposal
  world := o.answered prior
  placed := some ⟨byteSize o.before, byteSize o.before + byteSize proposal.toList⟩
  requested := prior.length + 1
  trace := Opening.trace prior ++ [.verifying]

def builtSession (o : Opening) (prior : List Round) (r : Round) : Session :=
  { placedSession o prior r.proposal with world := o.left r }

def askedSession (o : Opening) (prior : List Round) (s : Session) : Session :=
  { s with
    world := o.answered prior
    requested := prior.length + 1
    trace := Opening.trace prior ++ [.verifying] }

theorem build_placed (o : Opening) (prior : List Round) (proposal : String) (t : Tree) :
    { placedSession o prior proposal with
        world := { (placedSession o prior proposal).world with tree := t } }.build o.team.checker =
      ((roundOf o prior proposal t).outcome,
        builtSession o prior (roundOf o prior proposal t)) := rfl

theorem place_asked (h : AtRequest o prior s) (proposal : String) (n : Nat) :
    (askedSession o prior s).place o.team.strategy.anchor n proposal =
      placedSession o prior proposal := by
  have hs : (askedSession o prior s).Seated o.team.strategy.anchor o.before o.after := h.seated
  rw [Session.place_eq hs]
  simp only [askedSession, placedSession, Opening.spliced]
  rw [h.draft, h.held.lastDraft_path, h.held.lastDraft_opened]

theorem atRequest_next {d : String} (h : AtRequest o prior s) (hf : o.Follows prior r)
    (ho : r.outcome = .failed d) :
    AtRequest o (prior ++ [r])
      (((builtSession o prior r).visit .retrying).say .warning
        (Opening.failureNote (prior.length + 1) "requesting a fix")) where
  held := h.held.next hf
  failed := by
    intro r' hr
    obtain hr | hr := List.mem_append.mp hr
    · exact h.failed r' hr
    · rw [List.mem_singleton.mp hr, ho]
      exact nofun
  world := by simp [Opening.due, Opening.say, builtSession, placedSession]
  requested := by simp [builtSession, placedSession]
  trace := by simp [Opening.trace, builtSession, placedSession]
  draft := by simp [Opening.lastDraft, builtSession, placedSession, hf.draft]
  seated := Session.seated_of_placed rfl String.toList_ofList

theorem attempts_eq (h : AtRequest o prior s) (left : Nat) :
    attempts o.team o.oracle left prior.length (o.request prior).1 (o.request prior).2 s =
      match (o.reply prior).1 with
      | none =>
        finish (((askedSession o prior s).say .warning "no rewrite proposal available").visit
          .exhausted) (.unverified (.noProposal prior.length))
      | some proposal =>
        match (o.spliced proposal).persist (o.due prior).tree with
        | .error e => ⟨placedSession o prior proposal, .error e⟩
        | .ok t =>
          let r := roundOf o prior proposal t
          let note := Opening.failureNote (prior.length + 1)
          match r.outcome, left with
          | .success, _ =>
            finish (((builtSession o prior r).say .success "build passed").visit .verified)
              (.verified prior.length)
          | .failed d, 0 =>
            finish ((((builtSession o prior r).visit .retrying).say .error
              (note "no attempts left")).visit .exhausted) (.unverified (.budgetSpent d))
          | .failed d, left + 1 =>
            attempts o.team o.oracle left (prior.length + 1) proposal
              (o.team.strategy.fixInstructions proposal d)
              (((builtSession o prior r).visit .retrying).say .warning
                (note "requesting a fix")) := by
  rw [attempts]
  have ha := ask_asker h
  simp only [asker] at ha
  simp only [ha]
  cases hr : (o.reply prior).1 with
  | none => rfl
  | some proposal =>
    have hp := place_asked h proposal prior.length
    simp only [askedSession] at hp
    simp only [hp, Session.persist]
    have ht : (placedSession o prior proposal).draft.persist
        (placedSession o prior proposal).world.tree =
          (o.spliced proposal).persist (o.due prior).tree := rfl
    rw [ht]
    cases hw : (o.spliced proposal).persist (o.due prior).tree with
    | error e => rfl
    | ok t =>
      simp only [Except.map, build_placed]
      cases (roundOf o prior proposal t).outcome with
      | success => rfl
      | failed d => cases left <;> rfl

theorem ended_refused (h : AtRequest o prior s) (few : prior.length < maxAttempts)
    (hr : (o.reply prior).1 = none) :
    o.Ended prior
      (finish (((askedSession o prior s).say .warning "no rewrite proposal available").visit
        .exhausted) (.unverified (.noProposal prior.length))) := by
  refine .refused few h.failed hr rfl rfl ?_ h.draft ?_
  · simp [finish, askedSession]
  · have hl : (askedSession o prior s).draft.label = o.draft.label := by
      simp only [askedSession, h.draft, Draft.label, h.held.lastDraft_path]
    simp only [finish, Session.visit_world, Session.say_world, hl]
    rfl

theorem ended_unwritable (h : AtRequest o prior s) (few : prior.length < maxAttempts)
    {proposal : String} {e : Failure} (hr : (o.reply prior).1 = some proposal)
    (hw : (o.spliced proposal).persist (o.due prior).tree = .error e) :
    o.Ended prior ⟨placedSession o prior proposal, .error e⟩ :=
  .unwritable proposal e few h.failed hr hw rfl rfl rfl rfl rfl

theorem ended_passed (h : AtRequest o prior s) (few : prior.length < maxAttempts)
    (hf : o.Follows prior r) (ho : r.outcome = .success) :
    o.Ended (prior ++ [r])
      (finish (((builtSession o prior r).say .success "build passed").visit .verified)
        (.verified prior.length)) := by
  refine .passed prior r rfl few h.failed ho rfl ?_ ?_ ?_ rfl
  · simp [finish, builtSession, placedSession]
  · simp [finish, builtSession, placedSession]
  · exact hf.draft.symm

theorem ended_spent (h : AtRequest o prior s) (all : prior.length + 1 = maxAttempts) {d : String}
    (hf : o.Follows prior r) (ho : r.outcome = .failed d) :
    o.Ended (prior ++ [r])
      (finish ((((builtSession o prior r).visit .retrying).say .error
        (Opening.failureNote (prior.length + 1) "no attempts left")).visit .exhausted)
          (.unverified (.budgetSpent d))) := by
  refine .spent prior r d rfl (by simpa using all) h.failed ho rfl ?_ ?_ hf.draft.symm ?_
  · simp [finish, builtSession, placedSession]
  · simp [Opening.trace, finish, builtSession, placedSession]
  · simp [Opening.say, finish, builtSession, placedSession]

theorem request_next {d : String} (ho : r.outcome = .failed d) :
    o.request (prior ++ [r]) =
      (r.proposal, o.team.strategy.fixInstructions r.proposal d) := by
  simp [Opening.request, ho, Opening.diagnostic]

theorem attempt_cases (left : Nat) (hl : prior.length + left + 1 = maxAttempts)
    (h : AtRequest o prior s) :
    (∃ rounds, o.Held rounds ∧ o.Ended rounds
      (attempts o.team o.oracle left prior.length (o.request prior).1 (o.request prior).2 s)) ∨
    ∃ n r s', left = n + 1 ∧ AtRequest o (prior ++ [r]) s' ∧
      attempts o.team o.oracle left prior.length (o.request prior).1 (o.request prior).2 s =
        attempts o.team o.oracle n (prior ++ [r]).length (o.request (prior ++ [r])).1
          (o.request (prior ++ [r])).2 s' := by
  rw [attempts_eq h]
  cases hr : (o.reply prior).1 with
  | none => exact .inl ⟨prior, h.held, ended_refused h (by omega) hr⟩
  | some proposal =>
    dsimp only
    cases hw : (o.spliced proposal).persist (o.due prior).tree with
    | error e => exact .inl ⟨prior, h.held, ended_unwritable h (by omega) hr hw⟩
    | ok t =>
      have hf := follows_roundOf hr hw
      dsimp only
      cases ho : (roundOf o prior proposal t).outcome with
      | success => exact .inl ⟨_, h.held.next hf, ended_passed h (by omega) hf ho⟩
      | failed d =>
        cases left with
        | zero => exact .inl ⟨_, h.held.next hf, ended_spent h (by omega) hf ho⟩
        | succ n =>
          refine .inr ⟨n, _, _, rfl, atRequest_next h hf ho, ?_⟩
          rw [request_next ho, List.length_append]
          rfl

/-- Whatever the oracle and the checker say, the attempts are rounds that follow one another. -/
theorem attempts_ended (left : Nat) (hl : prior.length + left + 1 = maxAttempts)
    (h : AtRequest o prior s) :
    ∃ rounds, o.Held rounds ∧ o.Ended rounds
      (attempts o.team o.oracle left prior.length (o.request prior).1 (o.request prior).2 s) := by
  induction left generalizing prior s with
  | zero =>
    obtain he | ⟨n, r, s', hn, -, -⟩ := attempt_cases 0 hl h
    · exact he
    · cases hn
  | succ left ih =>
    obtain he | ⟨n, r, s', hn, h', he⟩ := attempt_cases (left + 1) hl h
    · exact he
    · cases hn
      rw [he]
      exact ih (by rw [List.length_append, List.length_singleton]; omega) h'

theorem Opening.Held.follows (h : o.Held prior) (i : Nat) (hi : i < prior.length) :
    o.Follows (prior.take i) prior[i] := by
  induction h with
  | start => cases hi
  | @next prior r held follows ih =>
    rw [List.length_append, List.length_singleton] at hi
    obtain hi | rfl := Nat.lt_succ_iff_lt_or_eq.mp hi
    · rw [List.take_append_of_le_length (Nat.le_of_lt hi), List.getElem_append_left hi]
      exact ih hi
    · simpa using follows

theorem Opening.Follows.path (h : o.Follows prior r) : r.draft.path = o.draft.path := by
  rw [h.draft, spliced_path]

/-- What notes, checks and writing to a path keep. -/
structure Keeps (checker : Checker) (path : String) (I : World → Prop) : Prop where
  notes : ∀ w events, I w → I (w.notes events)
  write : ∀ w t text, I w → w.tree.write path (String.toUTF8 text) = .ok t → I { w with tree := t }
  check : ∀ w, I w →
    I ⟨(checker.check w.journal w.tree).2.2, w.journal ++ (checker.check w.journal w.tree).2.1⟩

theorem Opening.Follows.keeps {I : World → Prop} (h : o.Follows prior r)
    (hI : Keeps o.team.checker o.draft.path I) (hd : I (o.due prior)) :
    I r.built ∧ I (o.left r) := by
  have ha : I (o.answered prior) := hI.notes _ _ (hI.notes _ [_] hd)
  have hw := Draft.persist_eq_ok.mp h.written
  rw [h.path] at hw
  have hb : I r.built := by
    have hn := hI.notes _ [.building r.draft.content (r.built.tree.read r.draft.path).toOption]
      (hI.write (o.answered prior) r.built.tree r.draft.content ha hw)
    have he : r.built = ⟨r.built.tree, r.built.journal⟩ := rfl
    rw [he, h.journal]
    exact hn
  exact ⟨hb, hI.check r.built hb⟩

theorem Keeps.say {I : World → Prop} (hI : Keeps o.team.checker o.draft.path I) {w : World}
    (hw : I w) (tone : Tone) (message : String) : I (o.say w tone message) := hI.notes w [_] hw

theorem Opening.Held.keeps {I : World → Prop} (h : o.Held prior)
    (hI : Keeps o.team.checker o.draft.path I) (hw : I o.world) :
    I (o.due prior) ∧ ∀ r ∈ prior, I r.built ∧ I (o.left r) := by
  induction h with
  | start => exact ⟨hI.say hw _ _, nofun⟩
  | @next prior r held follows ih =>
    obtain ⟨hd, hr⟩ := ih
    have hf := follows.keeps hI hd
    refine ⟨?_, fun r' hm => ?_⟩
    · simpa [due] using hI.say hf.2 _ _
    · obtain hm | hm := List.mem_append.mp hm
      · exact hr r' hm
      · rwa [List.mem_singleton.mp hm]

theorem Opening.Ended.keeps {I : World → Prop} {result : Result} (he : o.Ended prior result)
    (h : o.Held prior) (hI : Keeps o.team.checker o.draft.path I) (hw : I o.world) :
    I result.session.world := by
  obtain ⟨hd, hr⟩ := h.keeps hI hw
  have ha : I (o.answered prior) := hI.notes _ _ (hI.notes _ [_] hd)
  cases he with
  | refused _ _ _ _ _ _ _ world =>
    rw [world]
    exact hI.say ha _ _
  | unwritable _ _ _ _ _ _ _ _ _ _ world =>
    rw [world]
    exact ha
  | passed before r rounds_eq _ _ _ _ _ _ _ world =>
    rw [world]
    exact hI.say (hr r (by simp [rounds_eq])).2 _ _
  | spent before r d rounds_eq _ _ _ _ _ _ _ world =>
    rw [world]
    exact hI.say (hr r (by simp [rounds_eq])).2 _ _

section Run

variable {team : Team} {d : Draft} {w : World} {oracle : Oracle} {before unit after : List Char}

/-- A repair when its first request is due. -/
def opening (team : Team) (oracle : Oracle) (before unit after : List Char) (d : Draft)
    (w : World) : Opening :=
  ⟨team, oracle, before, unit, after, d.applyRules team.strategy.rules, w⟩

theorem atRequest_start
    (hu : Source.splitUnit? team.strategy.anchor.toList
      (d.applyRules team.strategy.rules).content.toList = some (before, unit, after)) :
    AtRequest (opening team oracle before unit after d w) []
      { draft := d.applyRules team.strategy.rules, world := w,
        trace := [.idle, .screening, .applying, .awaiting] } where
  held := .start
  failed := nofun
  world := rfl
  requested := rfl
  trace := rfl
  draft := rfl
  seated := by
    refine ⟨⟨byteSize before, byteSize before + byteSize unit⟩, unit, ?_, ?_⟩
    · simp [Draft.locate, Source.findUnit, opening, hu]
    · simp only [opening]
      rw [← Source.splitUnit?_append hu]
      exact Span.split?_between before unit after

theorem run_of_not_needed (hn : team.strategy.needsMigration d.content = false) :
    run team d w =
      ⟨{ draft := d, world := w, trace := [.idle, .screening, .done] }, .ok .notNeeded⟩ := by
  simp [run, hn, finish, Session.visit]

theorem run_of_no_unit (hn : team.strategy.needsMigration d.content = true)
    (hu : (d.applyRules team.strategy.rules).unit? team.strategy.anchor = none) :
    run team d w =
      ⟨{ draft := d.applyRules team.strategy.rules, world := w,
         trace := [.idle, .screening, .applying, .awaiting, .done] },
        .ok (.rulesOnly .unitNotFound)⟩ := by
  simp [run, hn, hu, finish, Session.visit]

theorem run_of_no_oracle (hn : team.strategy.needsMigration d.content = true)
    (hu : (d.applyRules team.strategy.rules).unit? team.strategy.anchor ≠ none)
    (ho : team.oracle = none) :
    run team d w =
      ⟨{ draft := d.applyRules team.strategy.rules, world := w,
         trace := [.idle, .screening, .applying, .awaiting, .done] },
        .ok (.rulesOnly .noOracle)⟩ := by
  obtain ⟨unit, hu⟩ := Option.ne_none_iff_exists'.mp hu
  simp [run, hn, hu, ho, finish, Session.visit]

/-- With a unit to ask for and an oracle to ask, a repair goes through rounds. -/
theorem run_ended (hn : team.strategy.needsMigration d.content = true)
    (hu : Source.splitUnit? team.strategy.anchor.toList
      (d.applyRules team.strategy.rules).content.toList = some (before, unit, after))
    (ho : team.oracle = some oracle) :
    ∃ rounds, (opening team oracle before unit after d w).Held rounds ∧
      (opening team oracle before unit after d w).Ended rounds (run team d w) := by
  have hq : (d.applyRules team.strategy.rules).unit? team.strategy.anchor =
      some (String.ofList unit) := by
    simp [Draft.unit?, hu]
  have he := attempts_ended (maxAttempts - 1) (by decide)
    (@atRequest_start team d w oracle before unit after hu)
  have hr : run team d w = attempts team oracle (maxAttempts - 1) 0 (String.ofList unit)
      (team.strategy.initialInstructions (String.ofList unit))
      { draft := d.applyRules team.strategy.rules, world := w,
        trace := [.idle, .screening, .applying, .awaiting] } := by
    simp [run, hn, hq, ho, Session.visit]
  rw [hr]
  exact he

end Run

end Refit.Repair
