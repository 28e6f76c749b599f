import Refit.Proofs.Tree.Change

namespace Refit.Tree

open Refit.Path

variable {t u : Tree} {here directory place p q : Place} {segments names rest : List String}
  {s : String} {links n : Nat} {entry : Entry} {spot : Spot} {target : String}

/-- The places that are looked at on the way down, as far as no link is met. -/
def descent (t : Tree) (here : Place) : List String → List Place
  | [] => []
  | s :: rest =>
    if isFiller s then t.descent here rest
    else if s = ".." then t.descent here.dropLast rest
    else
      (here ++ [s]) ::
        match t.get? (here ++ [s]) with
        | some .directory => t.descent (here ++ [s]) rest
        | _ => []

/-- The places that are looked at when links are followed, at most `links` of them. -/
def trail (t : Tree) : (links : Nat) → Place → List String → List Place
  | 0, here, segments => t.descent here segments
  | links + 1, here, segments =>
    t.descent here segments ++
      match advance t false here segments with
      | .linked directory target rest =>
        let path := Path.ofText target
        t.trail links (if path.rooted then [] else directory) (path.segments ++ rest)
      | _ => []

theorem descent_subset_trail : t.descent here segments ⊆ t.trail links here segments := by
  cases links with
  | zero => exact List.Subset.refl _
  | succ links => exact List.subset_append_left _ _

theorem trail_linked (h : advance t false here segments = .linked directory target rest) :
    t.trail (links + 1) here segments = t.descent here segments ++
      t.trail links (if (Path.ofText target).rooted then [] else directory)
        ((Path.ofText target).segments ++ rest) := by
  rw [trail, h]

theorem advance_congr (h : ∀ p ∈ t.descent here segments, u.get? p = t.get? p) :
    advance u false here segments = advance t false here segments := by
  induction segments generalizing here with
  | nil => rfl
  | cons s segments ih =>
    simp only [descent] at h
    simp only [advance]
    generalize here ++ [s] = there at h ⊢
    grind

theorem descent_congr (h : ∀ p ∈ t.descent here segments, u.get? p = t.get? p) :
    u.descent here segments = t.descent here segments := by
  induction segments generalizing here with
  | nil => rfl
  | cons s segments ih =>
    simp only [descent] at h ⊢
    generalize here ++ [s] = there at h ⊢
    grind

theorem follow_of_advance {here' : Place} {segments' : List String}
    (h : advance u false here' segments' = advance t false here segments)
    (hf : ∀ n directory target rest, links = n + 1 →
      advance t false here segments = .linked directory target rest →
      follow u false n (if (Path.ofText target).rooted then [] else directory)
          ((Path.ofText target).segments ++ rest) =
        follow t false n (if (Path.ofText target).rooted then [] else directory)
          ((Path.ofText target).segments ++ rest)) :
    follow u false links here' segments' = follow t false links here segments := by
  rw [follow.eq_def, follow.eq_def t]
  dsimp only
  rw [h]
  cases ha : advance t false here segments with
  | arrived => rfl
  | failed => rfl
  | linked directory target rest =>
    cases links with
    | zero => rfl
    | succ links => simp only [hf links directory target rest rfl ha]

theorem follow_congr (h : ∀ p ∈ t.trail links here segments, u.get? p = t.get? p) :
    follow u false links here segments = follow t false links here segments := by
  induction links using Nat.strongRecOn generalizing here segments with
  | _ links ih =>
    refine follow_of_advance (advance_congr fun p hp => h p (descent_subset_trail hp)) ?_
    rintro n directory target rest rfl ha
    rw [trail_linked ha] at h
    exact ih n (Nat.lt_succ_self n) fun p hp => h p (List.mem_append_right _ hp)

theorem trail_congr (h : ∀ p ∈ t.trail links here segments, u.get? p = t.get? p) :
    u.trail links here segments = t.trail links here segments := by
  induction links generalizing here segments with
  | zero => exact descent_congr h
  | succ links ih =>
    have hd := fun p hp => h p (descent_subset_trail hp)
    rw [trail, trail, descent_congr hd, advance_congr hd]
    cases hl : advance t false here segments with
    | arrived => rfl
    | failed => rfl
    | linked directory target rest =>
      rw [trail_linked hl] at h
      simp only [ih fun p hp => h p (List.mem_append_right _ hp)]

theorem advance_step (t : Tree) (here : Place) (s : String) :
    (∃ next seen, ∀ rest, advance t false here (s :: rest) = advance t false next rest ∧
      t.descent here (s :: rest) = seen ++ t.descent next rest) ∨
    (isFiller s = false ∧ s ≠ "..") ∧ t.get? (here ++ [s]) ≠ some .directory ∧
      ∀ rest, t.descent here (s :: rest) = [here ++ [s]] := by
  by_cases hf : isFiller s = true
  · refine .inl ⟨here, [], fun rest => ⟨?_, ?_⟩⟩
    · rw [advance, if_pos hf]
    · rw [descent, if_pos hf, List.nil_append]
  by_cases hu : s = ".."
  · refine .inl ⟨here.dropLast, [], fun rest => ⟨?_, ?_⟩⟩
    · rw [advance, if_neg hf, if_pos hu]
    · rw [descent, if_neg hf, if_pos hu, List.nil_append]
  by_cases hg : t.get? (here ++ [s]) = some .directory
  · refine .inl ⟨here ++ [s], [here ++ [s]], fun rest => ⟨?_, ?_⟩⟩
    · simp only [advance, if_neg hf, if_neg hu, hg]
    · simp only [descent, if_neg hf, if_neg hu, hg, List.singleton_append]
  · refine .inr ⟨⟨by simpa using hf, hu⟩, hg, fun rest => ?_⟩
    simp only [descent, if_neg hf, if_neg hu]

theorem advance_stop (hs : isFiller s = false ∧ s ≠ "..")
    (hg : t.get? (here ++ [s]) ≠ some .directory) (rest : List String) :
    (∃ target, t.get? (here ++ [s]) = some (.link target) ∧
      advance t false here (s :: rest) = .linked here target rest) ∨
    (∀ target, t.get? (here ++ [s]) ≠ some (.link target)) ∧
      (∀ directory target below,
        advance t false here (s :: rest) ≠ .linked directory target below) ∧
      ∀ place entry, advance t false here (s :: rest) = .arrived (.found place entry) →
        entry ≠ .directory ∧ rest = [] := by
  simp only [advance, hs.1, if_neg hs.2, Bool.false_eq_true, if_false]
  cases he : t.get? (here ++ [s]) with
  | none =>
    refine .inr ⟨by simp, ?_⟩
    dsimp only
    split <;> simp
  | some entry =>
    cases entry with
    | directory => exact absurd he hg
    | link target => exact .inl ⟨target, rfl, rfl⟩
    | file bytes runnable =>
      refine .inr ⟨by simp, ?_⟩
      dsimp only
      split
      · rename_i hrest
        refine ⟨by simp, fun place entry h => ⟨?_, hrest⟩⟩
        cases h
        simp
      · split <;> simp

theorem advance_append (h : advance t false here segments = .arrived (.found directory .directory))
    (more : List String) :
    advance t false here (segments ++ more) = advance t false directory more ∧
      t.descent here (segments ++ more) = t.descent here segments ++ t.descent directory more := by
  induction segments generalizing here with
  | nil =>
    cases h
    exact ⟨rfl, rfl⟩
  | cons s segments ih =>
    obtain ⟨next, seen, hn⟩ | ⟨hs, hg, -⟩ := t.advance_step here s
    · rw [(hn segments).1] at h
      obtain ⟨ha, hd⟩ := ih h
      rw [List.cons_append, (hn _).1, (hn _).2, (hn _).2, ha, hd, List.append_assoc]
      exact ⟨rfl, rfl⟩
    · obtain ⟨_, -, ha⟩ | ⟨-, -, hfound⟩ := advance_stop hs hg segments
      · rw [ha] at h
        cases h
      · exact absurd rfl (hfound _ _ h).1

theorem advance_append_linked (h : advance t false here segments = .linked directory target rest)
    (more : List String) :
    advance t false here (segments ++ more) = .linked directory target (rest ++ more) ∧
      t.descent here (segments ++ more) = t.descent here segments := by
  induction segments generalizing here with
  | nil => cases h
  | cons s segments ih =>
    obtain ⟨next, seen, hn⟩ | ⟨hs, hg, hd⟩ := t.advance_step here s
    · rw [(hn segments).1] at h
      obtain ⟨ha, hd⟩ := ih h
      rw [List.cons_append, (hn _).1, (hn _).2, (hn _).2, ha, hd]
      exact ⟨rfl, rfl⟩
    · refine ⟨?_, (hd _).trans (hd _).symm⟩
      obtain ⟨target, he, ha⟩ | ⟨-, hlinked, -⟩ := advance_stop hs hg segments
      · rw [ha] at h
        cases h
        obtain ⟨_, he', ha⟩ | ⟨he', -⟩ := advance_stop hs hg (rest ++ more)
        · rw [he] at he'
          cases he'
          exact ha
        · exact absurd he (he' target)
      · exact absurd h (hlinked _ _ _)

/-- A path goes on from the directory that its first part leads to, with the links that are left. -/
theorem follow_append
    (h : follow t false links here segments = .ok (.found directory .directory)) :
    ∃ n, n ≤ links ∧ ∀ more,
      follow t false links here (segments ++ more) = follow t false n directory more ∧
      t.trail links here (segments ++ more) =
        t.trail links here segments ++ t.trail n directory more := by
  induction links generalizing here segments with
  | zero =>
    obtain ha | ⟨n, _, _, _, hn, -⟩ := follow_eq_ok.mp h
    · refine ⟨0, Nat.le_refl 0, fun more => ?_⟩
      obtain ⟨ham, hdm⟩ := advance_append ha more
      exact ⟨follow_of_advance ham fun _ _ _ _ _ _ => rfl, hdm⟩
    · exact absurd hn.symm (Nat.succ_ne_zero n)
  | succ links ih =>
    obtain ha | ⟨n, d, target, rest, hn, ht, ha, hf⟩ := follow_eq_ok.mp h
    · refine ⟨links + 1, Nat.le_refl _, fun more => ?_⟩
      obtain ⟨ham, hdm⟩ := advance_append ha more
      refine ⟨follow_of_advance ham fun _ _ _ _ _ _ => rfl, ?_⟩
      simp only [trail, ham, hdm, ha, List.append_nil, List.append_assoc]
    · cases hn
      obtain ⟨n, hn, hm⟩ := ih hf
      refine ⟨n, Nat.le_succ_of_le hn, fun more => ?_⟩
      obtain ⟨ham, hdm⟩ := advance_append_linked ha more
      obtain ⟨hfm, htm⟩ := hm more
      rw [List.append_assoc] at hfm htm
      refine ⟨?_, ?_⟩
      · rw [follow, ham]
        simp only [ht, if_false, hfm]
      · rw [trail_linked ham, trail_linked ha, hdm, htm, List.append_assoc]

theorem advance_filler (hs : isFiller s = true) (hn : names.all (· == "") = false) :
    advance t false here (segments ++ s :: names) = advance t false here (segments ++ names) ∨
    ∃ directory target rest,
      advance t false here (segments ++ s :: names) = .linked directory target (rest ++ s :: names) ∧
      advance t false here (segments ++ names) = .linked directory target (rest ++ names) := by
  induction segments generalizing here with
  | nil =>
    left
    simp only [List.nil_append, advance, if_pos hs]
  | cons a segments ih =>
    obtain ⟨next, seen, hnext⟩ | ⟨ha, hg, -⟩ := t.advance_step here a
    · rw [List.cons_append, List.cons_append, (hnext _).1, (hnext _).1]
      exact ih
    · have hne : names ≠ [] := by
        rintro rfl
        cases hn
      simp only [List.cons_append, advance, ha.1, if_neg ha.2, Bool.false_eq_true, if_false]
      cases he : t.get? (here ++ [a]) with
      | none => simp [hn]
      | some entry =>
        cases entry with
        | directory => exact absurd he hg
        | file bytes runnable => simp [hn, hne]
        | link target => exact .inr ⟨here, target, segments, rfl, rfl⟩

theorem follow_filler (hs : isFiller s = true) (hn : names.all (· == "") = false) :
    follow t false links here (segments ++ s :: names) =
      follow t false links here (segments ++ names) := by
  induction links using Nat.strongRecOn generalizing here segments with
  | _ links ih =>
    obtain ha | ⟨directory, target, rest, ha, ha'⟩ := @advance_filler t here segments names s hs hn
    · exact follow_of_advance ha fun _ _ _ _ _ _ => rfl
    · rw [follow.eq_def, follow.eq_def t]
      simp only [ha, ha']
      cases links with
      | zero => rfl
      | succ links =>
        dsimp only
        rw [← List.append_assoc, ← List.append_assoc, ih links (Nat.lt_succ_self links)]

theorem follow_fillers (hs : isFiller s = false) (above segments : List String) :
    follow t false links here (above ++ (segments ++ [s])) =
      follow t false links here (above ++ ((segments.filter fun a => !isFiller a) ++ [s])) := by
  induction segments generalizing above with
  | nil => rfl
  | cons a segments ih =>
    by_cases ha : isFiller a = true
    · have hlast : (segments ++ [s]).all (· == "") = false := by
        have hne : s ≠ "" := by
          rintro rfl
          cases hs
        simp [hne]
      rw [List.filter_cons_of_neg (by simp [ha]), List.cons_append, follow_filler ha hlast]
      exact ih above
    · rw [List.filter_cons_of_pos (by simp [ha]), List.cons_append, List.cons_append]
      have ih := ih (above ++ [a])
      rwa [List.append_assoc, List.append_assoc, List.singleton_append, List.singleton_append] at ih

theorem spot_joinPath (hs : IsName s) (path : String) :
    t.spot (joinPath path s) = t.follow false linkLimit [] ((ofText path).names ++ [s]) := by
  have hrooted : (ofText s).rooted = false := by rw [ofText_name hs]
  have hsegments : (ofText s).segments = [s] := by rw [ofText_name hs]
  unfold Tree.spot spotFrom
  by_cases hp : path = ""
  · have hempty : (ofText "").names = [] := by decide
    have hj : joinPath "" s = s := by
      rw [← Bool.not_eq_true, rooted_ofText] at hrooted
      simp [joinPath, hrooted]
    simp only [hp, hj, hempty, if_neg hs.ne_empty, hsegments, ite_self, List.nil_append]
  · obtain ⟨above, hj, habove⟩ := segments_joinPath (b := s) hp hrooted
    have hnames : (above.filter fun a => !isFiller a) = (ofText path).names := by
      unfold names
      obtain he | he := habove <;> rw [he]
      simp [isFiller]
    have hne : joinPath path s ≠ "" := by
      intro he
      have hempty : (ofText "").segments = [] ++ [""] := by decide
      rw [he, hempty, hsegments] at hj
      exact hs.ne_empty (List.singleton_inj.mp (List.append_inj' hj rfl).2).symm
    simp only [if_neg hne, hj, hsegments, ite_self, ← hnames]
    exact follow_fillers hs.not_filler [] above

/-- What a name leads to from a directory. -/
theorem follow_name (hs : isFiller s = false ∧ s ≠ "..") (n : Nat) :
    t.follow false n directory [s] =
      match t.get? (directory ++ [s]) with
      | none => .ok (.vacant (directory ++ [s]) false)
      | some (.link _) => t.follow false n directory [s]
      | some entry => .ok (.found (directory ++ [s]) entry) := by
  cases hg : t.get? (directory ++ [s]) with
  | none =>
    refine follow_eq_ok.mpr (.inl ?_)
    simp [advance, hs.1, hs.2, hg]
  | some entry =>
    cases entry with
    | link target => rfl
    | directory =>
      refine follow_eq_ok.mpr (.inl ?_)
      simp [advance, hs.1, hs.2, hg]
    | file bytes runnable =>
      refine follow_eq_ok.mpr (.inl ?_)
      simp [advance, hs.1, hs.2, hg]

theorem trail_name (hs : isFiller s = false ∧ s ≠ "..")
    (hl : ∀ target, t.get? (directory ++ [s]) ≠ some (.link target)) (n : Nat) :
    t.trail n directory [s] = [directory ++ [s]] := by
  have hd : t.descent directory [s] = [directory ++ [s]] := by
    simp only [descent, hs.1, if_neg hs.2, Bool.false_eq_true, if_false]
    split <;> rfl
  have ha : ∀ d target rest, advance t false directory [s] ≠ .linked d target rest := by
    intro d target rest h
    simp only [advance, hs.1, if_neg hs.2, Bool.false_eq_true, if_false] at h
    cases he : t.get? (directory ++ [s]) with
    | none => simp [he] at h
    | some entry =>
      cases entry with
      | link target => exact hl target he
      | directory => simp [he] at h
      | file => simp [he] at h
  cases n with
  | zero => exact hd
  | succ n =>
    rw [trail, hd]
    split
    · exact absurd ‹_› (ha _ _ _)
    · rfl

theorem trail_mono {m : Nat} (h : n ≤ m) : t.trail n here segments ⊆ t.trail m here segments := by
  induction n generalizing m here segments with
  | zero => exact descent_subset_trail
  | succ n ih =>
    obtain ⟨m, rfl⟩ : ∃ k, m = k + 1 := ⟨m - 1, by omega⟩
    intro p hp
    rw [trail] at hp ⊢
    obtain hp | hp := List.mem_append.mp hp
    · exact List.mem_append_left _ hp
    · refine List.mem_append_right _ ?_
      split at hp
      · exact ih (Nat.le_of_succ_le_succ h) hp
      · exact hp

theorem advance_init (hs : isFiller s = false) :
    (∀ spot, advance t false here (segments ++ [s]) = .arrived spot →
      ∃ directory, advance t false here segments = .arrived (.found directory .directory)) ∧
    ∀ directory target rest, advance t false here (segments ++ [s]) = .linked directory target rest →
      (∃ directory, advance t false here segments = .arrived (.found directory .directory)) ∨
      ∃ rest', rest = rest' ++ [s] ∧ advance t false here segments = .linked directory target rest' := by
  induction segments generalizing here with
  | nil => exact ⟨fun _ _ => ⟨here, rfl⟩, fun _ _ _ _ => .inl ⟨here, rfl⟩⟩
  | cons a segments ih =>
    have hne : s ≠ "" := by
      rintro rfl
      cases hs
    obtain ⟨next, seen, hn⟩ | ⟨ha, hg, -⟩ := t.advance_step here a
    · rw [List.cons_append, (hn _).1, (hn _).1]
      exact ih
    · simp only [List.cons_append, advance, ha.1, if_neg ha.2, Bool.false_eq_true, if_false]
      generalize here ++ [a] = there at hg ⊢
      cases he : t.get? there with
      | none => simp [hne]
      | some entry =>
        cases entry with
        | directory => exact absurd he hg
        | file bytes runnable => simp [hne]
        | link target =>
          refine ⟨by simp, fun _ _ _ h => ?_⟩
          cases h
          exact .inr ⟨segments, rfl, rfl⟩

/-- Before its last name, a path that leads somewhere leads to a directory. -/
theorem follow_init (hs : isFiller s = false)
    (h : follow t false links here (segments ++ [s]) = .ok spot) :
    ∃ directory, follow t false links here segments = .ok (.found directory .directory) := by
  induction links using Nat.strongRecOn generalizing here segments with
  | _ links ih =>
    obtain ha | ⟨n, d, target, rest, rfl, ht, ha, hf⟩ := follow_eq_ok.mp h
    · obtain ⟨directory, ha⟩ := (advance_init hs).1 _ ha
      exact ⟨directory, follow_eq_ok.mpr (.inl ha)⟩
    · obtain ⟨directory, ha⟩ | ⟨rest, rfl, ha'⟩ := (advance_init hs).2 _ _ _ ha
      · exact ⟨directory, follow_eq_ok.mpr (.inl ha)⟩
      · rw [← List.append_assoc] at hf
        obtain ⟨directory, hf⟩ := ih n (Nat.lt_succ_self n) hf
        exact ⟨directory, follow_eq_ok.mpr (.inr ⟨n, d, target, rest, rfl, ht, ha', hf⟩)⟩

theorem spot_text_eq (hq : ∀ s ∈ q, IsName s) :
    t.spot q.text = t.follow false linkLimit [] q := by
  by_cases hne : q = []
  · subst hne
    have hs : (Path.ofText (Place.text [])).segments = [""] := by decide
    have hn : Place.text [] ≠ "" := by decide
    have ha : t.advance false [] [""] = t.advance false [] [] := rfl
    unfold Tree.spot spotFrom
    simp only [if_neg hn, hs, ite_self]
    exact follow_of_advance ha fun _ _ _ _ _ _ => rfl
  · unfold Tree.spot spotFrom
    simp only [if_neg (spells_text hq).ne_empty, segments_text hne hq, ite_self]

theorem entryAt_text (hq : ∀ s ∈ q, IsName s) :
    t.entryAt q.text = .ok (place, entry) ↔
      t.follow false linkLimit [] q = .ok (.found place entry) := by
  rw [entryAt_eq_ok, spot_text_eq hq]

theorem isDirectory_eq_true {path : String} :
    t.isDirectory path = true ↔ ∃ place, t.entryAt path = .ok (place, .directory) := by
  unfold Tree.isDirectory
  constructor
  · intro h
    split at h
    · exact ⟨_, ‹_›⟩
    · cases h
  · rintro ⟨place, h⟩
    rw [h]

theorem isFile_eq_true {path : String} : t.isFile path = true ↔
    ∃ place bytes runnable, t.entryAt path = .ok (place, .file bytes runnable) := by
  unfold Tree.isFile
  constructor
  · intro h
    split at h
    · exact ⟨_, _, _, ‹_›⟩
    · cases h
  · rintro ⟨place, bytes, runnable, h⟩
    rw [h]

theorem exists?_eq_true {path : String} :
    t.exists? path = true ↔ ∃ place entry, t.entryAt path = .ok (place, entry) := by
  unfold Tree.exists?
  cases t.entryAt path with
  | error e => simp [Except.toOption]
  | ok found => exact ⟨fun _ => ⟨found.1, found.2, rfl⟩, fun _ => rfl⟩

theorem descent_names (hn : ∀ s ∈ segments, IsName s) (hp : p ∈ t.descent here segments) :
    p <+: here ++ segments := by
  induction segments generalizing here with
  | nil => cases hp
  | cons s segments ih =>
    have hs := hn s List.mem_cons_self
    have hn := fun a ha => hn a (List.mem_cons_of_mem _ ha)
    rw [List.append_cons]
    simp only [descent, hs.not_filler, if_neg hs.not_up, Bool.false_eq_true, if_false] at hp
    obtain rfl | hp := List.mem_cons.mp hp
    · exact List.prefix_append _ _
    · split at hp
      · exact ih hn hp
      · cases hp

theorem advance_linked_names (hn : ∀ s ∈ segments, IsName s)
    (h : advance t false here segments = .linked directory target rest) :
    ∃ p, p <+: here ++ segments ∧ t.LinkAt p := by
  induction segments generalizing here with
  | nil => cases h
  | cons s segments ih =>
    have hs := hn s List.mem_cons_self
    have hn := fun a ha => hn a (List.mem_cons_of_mem _ ha)
    rw [List.append_cons]
    simp only [advance, hs.not_filler, if_neg hs.not_up, Bool.false_eq_true, if_false] at h
    have hp := List.prefix_append (here ++ [s]) segments
    cases he : t.get? (here ++ [s]) with
    | none => grind
    | some entry =>
      cases entry with
      | directory =>
        rw [he] at h
        exact ih hn h
      | file bytes runnable => grind
      | link target => exact ⟨_, hp, target, he⟩

theorem trail_names (hn : ∀ s ∈ segments, IsName s) (hl : ∀ p, p <+: here ++ segments → ¬ t.LinkAt p)
    (hp : p ∈ t.trail links here segments) : p <+: here ++ segments := by
  cases links with
  | zero => exact descent_names hn hp
  | succ links =>
    rw [trail] at hp
    obtain hp | hp := List.mem_append.mp hp
    · exact descent_names hn hp
    · split at hp
      · obtain ⟨q, hq, hlink⟩ := advance_linked_names hn ‹_›
        exact absurd hlink (hl q hq)
      · cases hp

section Outside

variable {S : Place → Prop}

theorem advance_outside (hS : ∀ p q, S p → p <+: q → S q) (hh : ¬ S here)
    (ht : ∀ p ∈ t.descent here segments, ¬ S p) :
    (∀ place entry, advance t false here segments = .arrived (.found place entry) → ¬ S place) ∧
      ∀ directory target rest, advance t false here segments = .linked directory target rest →
        ¬ S directory := by
  induction segments generalizing here with
  | nil => exact ⟨fun _ _ h => by cases h; exact hh, nofun⟩
  | cons s segments ih =>
    have hu : ¬ S here.dropLast := fun hd => hh (hS _ _ hd (List.dropLast_prefix here))
    simp only [descent] at ht
    simp only [advance]
    generalize here ++ [s] = there at ht ⊢
    split at ht
    · rw [if_pos ‹_›]
      exact ih hh ht
    rw [if_neg ‹_›]
    split at ht
    · rw [if_pos ‹_›]
      exact ih hu ht
    rw [if_neg ‹_›]
    have hthere := ht there List.mem_cons_self
    cases hg : t.get? there with
    | none => grind
    | some entry =>
      cases entry with
      | directory =>
        rw [hg] at ht
        exact ih hthere fun p hp => ht p (List.mem_cons_of_mem _ hp)
      | file bytes runnable => grind
      | link target => grind

theorem follow_outside (hS : ∀ p q, S p → p <+: q → S q) (hh : ¬ S here)
    (ht : ∀ p ∈ t.trail links here segments, ¬ S p)
    (h : follow t false links here segments = .ok (.found place entry)) : ¬ S place := by
  induction links using Nat.strongRecOn generalizing here segments with
  | _ links ih =>
    have hd := advance_outside hS hh fun p hp => ht p (descent_subset_trail hp)
    obtain ha | ⟨n, directory, target, rest, rfl, -, ha, hf⟩ := follow_eq_ok.mp h
    · exact hd.1 _ _ ha
    · rw [trail_linked ha] at ht
      refine ih n (Nat.lt_succ_self n) ?_ (fun p hp => ht p (List.mem_append_right _ hp)) hf
      split
      · exact fun hn => hh (hS _ _ hn (List.nil_prefix))
      · exact hd.2 _ _ _ ha

end Outside

end Refit.Tree
