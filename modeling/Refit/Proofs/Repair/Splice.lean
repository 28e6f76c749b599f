import Refit.Proofs.Repair.Rounds
import Refit.Proofs.Tree.Spot

/-!
What a repair does to the text. `run_splices` is the main statement: the draft that is built, and
the file on disk, are always the rewritten text with the last proposal in the place of the unit.
-/

namespace Refit.Repair

variable {o : Opening} {rounds : List Round} {r : Round} {result : Result}

theorem Opening.Held.spliced (h : o.Held rounds) (hr : r ∈ rounds) :
    r.draft.content.toList = o.before ++ (r.proposal.toList ++ o.after) ∧
      r.built.tree.readText o.draft.path = .ok r.draft.content := by
  obtain ⟨prior, hf⟩ := h.mem hr
  refine ⟨by rw [hf.draft]; exact String.toList_ofList, ?_⟩
  have ht := Tree.readText_write (Draft.persist_eq_ok.mp hf.written)
  rwa [hf.path] at ht

theorem Opening.Ended.kept (h : o.Ended rounds result) (hh : o.Held rounds) :
    result.session.draft.path = o.draft.path ∧
      result.session.draft.opened = o.draft.opened := by
  cases h with
  | refused _ _ _ _ _ _ draft _ => rw [draft]; exact ⟨hh.lastDraft_path, hh.lastDraft_opened⟩
  | unwritable _ _ _ _ _ _ _ _ _ draft _ => rw [draft]; exact ⟨rfl, rfl⟩
  | passed prior r rounds_eq _ _ _ _ _ _ draft _ =>
    subst rounds_eq
    rw [draft]
    simpa [Opening.lastDraft] using And.intro hh.lastDraft_path hh.lastDraft_opened
  | spent prior r d rounds_eq _ _ _ _ _ _ draft _ =>
    subst rounds_eq
    rw [draft]
    simpa [Opening.lastDraft] using And.intro hh.lastDraft_path hh.lastDraft_opened

def Opening.lastTree (o : Opening) (rounds : List Round) : Tree :=
  match rounds.getLast? with
  | none => o.world.tree
  | some r => (o.left r).tree

theorem Opening.due_tree (o : Opening) (rounds : List Round) :
    (o.due rounds).tree = o.lastTree rounds := by
  unfold Opening.due Opening.lastTree
  cases rounds.getLast? <;> rfl

theorem Opening.Ended.of_ok {status : Status} (h : o.Ended rounds result)
    (hs : result.status = .ok status) :
    result.session.draft = o.lastDraft rounds ∧ result.session.world.tree = o.lastTree rounds := by
  cases h with
  | refused _ _ _ _ _ _ draft world =>
    rw [draft, world]
    exact ⟨rfl, o.due_tree rounds⟩
  | unwritable _ _ _ _ _ _ status' _ _ _ _ => rw [status'] at hs; cases hs
  | passed prior r rounds_eq _ _ _ _ _ _ draft world =>
    subst rounds_eq
    rw [draft, world]
    simp [Opening.lastDraft, Opening.lastTree, Opening.say, World.say, World.note]
  | spent prior r d rounds_eq _ _ _ _ _ _ draft world =>
    subst rounds_eq
    rw [draft, world]
    simp [Opening.lastDraft, Opening.lastTree, Opening.say, World.say, World.note]

theorem Opening.Ended.of_error {e : Failure} (h : o.Ended rounds result)
    (hs : result.status = .error e) :
    ∃ proposal, (o.reply rounds).1 = some proposal ∧ result.session.draft = o.spliced proposal ∧
      result.session.world.tree = o.lastTree rounds := by
  cases h with
  | unwritable proposal _ _ _ reply _ _ _ _ draft world =>
    refine ⟨proposal, reply, draft, ?_⟩
    rw [world]
    exact o.due_tree rounds
  | refused _ _ _ status _ _ _ _ => rw [status] at hs; cases hs
  | passed _ _ _ _ _ _ status _ _ _ _ => rw [status] at hs; cases hs
  | spent _ _ _ _ _ _ _ status _ _ _ _ => rw [status] at hs; cases hs

theorem locate_eq_some {d : Draft} {anchor : String} {span : Text.Span}
    (h : d.locate anchor = some span) :
    ∃ before unit after,
      Source.splitUnit? anchor.toList d.content.toList = some (before, unit, after) ∧
        span.split? d.content.toList = some (before, unit, after) :=
  Source.split?_of_findUnit h

theorem unit?_eq_none {d : Draft} {anchor : String} :
    d.unit? anchor = none ↔ d.locate anchor = none := by
  simp [Draft.unit?, Draft.locate, Source.findUnit]

theorem run_unasked (team : Team) (d : Draft) (w : World)
    (h : team.strategy.needsMigration d.content = true →
      (d.applyRules team.strategy.rules).locate team.strategy.anchor = none ∨ team.oracle = none) :
    (run team d w).session.world = w ∧
      (run team d w).session.draft =
        if team.strategy.needsMigration d.content then d.applyRules team.strategy.rules else d := by
  cases hn : team.strategy.needsMigration d.content with
  | false =>
    rw [run_of_not_needed hn]
    exact ⟨rfl, rfl⟩
  | true =>
    by_cases hu : (d.applyRules team.strategy.rules).unit? team.strategy.anchor = none
    · rw [run_of_no_unit hn hu]
      exact ⟨rfl, rfl⟩
    · have ho : team.oracle = none := by
        obtain hl | ho := h hn
        · exact absurd (unit?_eq_none.mpr hl) hu
        · exact ho
      rw [run_of_no_oracle hn hu ho]
      exact ⟨rfl, rfl⟩

/-- The proposals of the rounds stand in the place of the unit, in the draft and in the file. -/
structure Opening.Spliced (o : Opening) (rounds : List Round) (result : Result) : Prop where
  builds : ∀ r ∈ rounds, r.draft.content.toList = o.before ++ (r.proposal.toList ++ o.after) ∧
    r.built.tree.readText o.draft.path = .ok r.draft.content
  unproposed : ∀ status, result.status = .ok status → rounds = [] →
    result.session.draft.content = o.draft.content ∧ result.session.world.tree = o.world.tree
  proposed : ∀ status r, result.status = .ok status → rounds.getLast? = some r →
    result.session.draft.content.toList = o.before ++ (r.proposal.toList ++ o.after) ∧
      result.session.world.tree = (o.left r).tree
  /-- A build that leaves the file alone leaves the last proposal in it. -/
  onDisk : ∀ status r, result.status = .ok status → rounds.getLast? = some r →
    (o.left r).tree.readText o.draft.path = r.built.tree.readText o.draft.path →
    result.session.world.tree.readText o.draft.path = .ok result.session.draft.content
  unwritable : ∀ e, result.status = .error e → ∃ proposal, (o.reply rounds).1 = some proposal ∧
    result.session.draft.content.toList = o.before ++ (proposal.toList ++ o.after) ∧
      result.session.world.tree = o.lastTree rounds

theorem Opening.Ended.spliced (h : o.Ended rounds result) (hh : o.Held rounds) :
    o.Spliced rounds result where
  builds _ hr := hh.spliced hr
  unproposed _ hs he := by
    obtain ⟨hd, ht⟩ := h.of_ok hs
    subst he
    exact ⟨congrArg Draft.content hd, ht⟩
  proposed _ r hs hl := by
    obtain ⟨hd, ht⟩ := h.of_ok hs
    simp only [Opening.lastDraft, Opening.lastTree, hl] at hd ht
    exact ⟨by rw [hd]; exact (hh.spliced (List.mem_of_getLast? hl)).1, ht⟩
  onDisk _ r hs hl hk := by
    obtain ⟨hd, ht⟩ := h.of_ok hs
    simp only [Opening.lastDraft, Opening.lastTree, hl] at hd ht
    rw [hd, ht, hk]
    exact (hh.spliced (List.mem_of_getLast? hl)).2
  unwritable e hs := by
    obtain ⟨proposal, hr, hd, ht⟩ := h.of_error hs
    exact ⟨proposal, hr, by rw [hd]; exact String.toList_ofList, ht⟩

theorem run_asked {team : Team} {d : Draft} {oracle : Oracle} {span : Text.Span} (w : World)
    (hn : team.strategy.needsMigration d.content = true) (ho : team.oracle = some oracle)
    (hl : (d.applyRules team.strategy.rules).locate team.strategy.anchor = some span) :
    ∃ before unit after,
      span.split? (d.applyRules team.strategy.rules).content.toList = some (before, unit, after) ∧
        ∃ rounds, (opening team oracle before unit after d w).Held rounds ∧
          (opening team oracle before unit after d w).Ended rounds (run team d w) := by
  obtain ⟨before, unit, after, hu, hs⟩ := locate_eq_some hl
  exact ⟨before, unit, after, hs, run_ended hn hu ho⟩

def Status.isUnasked : Status → Prop
  | .notNeeded | .rulesOnly _ => True
  | _ => False

theorem run_unasked_status (team : Team) (d : Draft) (w : World)
    (h : team.strategy.needsMigration d.content = true →
      (d.applyRules team.strategy.rules).locate team.strategy.anchor = none ∨ team.oracle = none) :
    ∃ status, (run team d w).status = .ok status ∧ status.isUnasked := by
  cases hn : team.strategy.needsMigration d.content with
  | false =>
    rw [run_of_not_needed hn]
    exact ⟨_, rfl, trivial⟩
  | true =>
    by_cases hu : (d.applyRules team.strategy.rules).unit? team.strategy.anchor = none
    · rw [run_of_no_unit hn hu]
      exact ⟨_, rfl, trivial⟩
    · rw [run_of_no_oracle hn hu ((h hn).resolve_left fun hl => hu (unit?_eq_none.mpr hl))]
      exact ⟨_, rfl, trivial⟩

theorem run_cases (team : Team) (d : Draft) (w : World) :
    ((run team d w).session.world = w ∧
      ((run team d w).session.draft = d ∨
        (run team d w).session.draft = d.applyRules team.strategy.rules) ∧
      ∃ status, (run team d w).status = .ok status ∧ status.isUnasked) ∨
    ∃ oracle before unit after rounds, team.oracle = some oracle ∧
      (opening team oracle before unit after d w).Held rounds ∧
      (opening team oracle before unit after d w).Ended rounds (run team d w) := by
  by_cases hun : team.strategy.needsMigration d.content = true →
      (d.applyRules team.strategy.rules).locate team.strategy.anchor = none ∨ team.oracle = none
  · obtain ⟨hw, hd⟩ := run_unasked team d w hun
    refine .inl ⟨hw, ?_, run_unasked_status team d w hun⟩
    rw [hd]
    split
    · exact .inr rfl
    · exact .inl rfl
  · obtain ⟨hn, hlo⟩ := Classical.not_imp.mp hun
    obtain ⟨hl, ho⟩ := not_or.mp hlo
    obtain ⟨span, hl⟩ := Option.ne_none_iff_exists'.mp hl
    obtain ⟨oracle, ho⟩ := Option.ne_none_iff_exists'.mp ho
    obtain ⟨before, unit, after, -, rounds, hh, he⟩ := run_asked w hn ho hl
    exact .inr ⟨oracle, before, unit, after, rounds, ho, hh, he⟩

/-- A repair keeps what its notes, its checks and the writing of the draft keep. -/
theorem run_keeps {team : Team} {d : Draft} {w : World} {I : World → Prop}
    (hI : Keeps team.checker d.path I) (hw : I w) : I (run team d w).session.world := by
  obtain ⟨hr, -⟩ | ⟨oracle, before, unit, after, rounds, -, hh, he⟩ := run_cases team d w
  · rw [hr]
    exact hw
  · exact he.keeps hh hI hw

theorem run_kept (team : Team) (d : Draft) (w : World) :
    (run team d w).session.draft.path = d.path ∧
      (run team d w).session.draft.opened = d.opened := by
  obtain ⟨-, hd | hd, -⟩ | ⟨oracle, before, unit, after, rounds, -, hh, he⟩ := run_cases team d w
  · rw [hd]
    exact ⟨rfl, rfl⟩
  · rw [hd]
    exact ⟨rfl, rfl⟩
  · exact he.kept hh

/-- At every build the draft and the file are the rewritten text with the proposal of the round in
the place of the unit, whatever the proposal is, and so they are in the end. -/
theorem run_splices (team : Team) (d : Draft) (w : World) :
    let base := d.applyRules team.strategy.rules
    let result := run team d w
    let final := result.session
    final.draft.opened = d.opened ∧ final.draft.path = d.path ∧
    (team.strategy.needsMigration d.content = false →
      final.draft.content = d.content ∧ final.world.tree = w.tree) ∧
    (team.strategy.needsMigration d.content = true →
      base.locate team.strategy.anchor = none ∨ team.oracle = none →
      final.draft.content = base.content ∧ final.world.tree = w.tree) ∧
    ∀ oracle span, team.strategy.needsMigration d.content = true → team.oracle = some oracle →
      base.locate team.strategy.anchor = some span →
      ∃ before unit after, span.split? base.content.toList = some (before, unit, after) ∧
        ∃ rounds, (opening team oracle before unit after d w).Held rounds ∧
          (opening team oracle before unit after d w).Ended rounds result ∧
          (opening team oracle before unit after d w).Spliced rounds result := by
  intro base result final
  refine ⟨(run_kept team d w).2, (run_kept team d w).1, ?_, ?_, ?_⟩
  · intro hn
    obtain ⟨hw, hd⟩ := run_unasked team d w (by simp [hn])
    rw [if_neg (by simp [hn])] at hd
    exact ⟨congrArg Draft.content hd, congrArg World.tree hw⟩
  · intro hn hl
    obtain ⟨hw, hd⟩ := run_unasked team d w (fun _ => hl)
    rw [if_pos hn] at hd
    exact ⟨congrArg Draft.content hd, congrArg World.tree hw⟩
  · intro oracle span hn ho hl
    obtain ⟨before, unit, after, hs, rounds, hh, he⟩ := run_asked w hn ho hl
    exact ⟨before, unit, after, hs, rounds, hh, he, he.spliced hh⟩

end Refit.Repair
